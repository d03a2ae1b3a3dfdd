import Std.Data.TreeMap
import TypedHeap.Declaration.Json
import TypedHeap.Registry

/-! # From declarations to a registry

A catalog holds declarations of different names. Building it names every type that is referred
to and finds the shape of each declaration, then lays out each declaration with all objects that
lie within it, and registers the results in order.
-/

namespace TypedHeap

structure Catalog where
  hasher : NameHasher
  declarations : List Declaration

namespace Catalog

def mostEntries : Nat := 65535

def mostDepth : Nat := 64

def empty (hasher : NameHasher) : Catalog := ⟨hasher, []⟩

def find? (c : Catalog) (name : String) : Option Declaration :=
  c.declarations.find? (·.name = name)

/-- Add a declaration. Its name must not be in use, by a built-in type either. -/
def declare (c : Catalog) (d : Declaration) : Except RegistryError Catalog :=
  if (Builtin.find? d.name).isSome ∨ (c.find? d.name).isSome then .error (.duplicateType d.name)
  else .ok { c with declarations := c.declarations ++ [d] }

def declareAll (c : Catalog) (ds : List Declaration) : Except RegistryError Catalog :=
  ds.foldlM declare c

def parse (hasher : NameHasher) (text : String) : Except RegistryError Catalog :=
  match Declaration.parseDocument? text with
  | none => .error .badDescription
  | some ds => (empty hasher).declareAll ds

/-! ## Names -/

structure Target where
  hash : TypeHash
  size : Nat
  coercion : Option TypeHash
  /-- The declaration, unless the type is built in. -/
  declaration : Option Declaration

/-- The hashes under which an object of the type is found: its own and that of its coercion. -/
def Target.hashes (t : Target) : List TypeHash := t.hash :: t.coercion.toList

/-- The type that `d` is coerced to: the one it names, or for a pointer the view that pointers
share. -/
def coercionOf (c : Catalog) (d : Declaration) : Except RegistryError (Option TypeHash) :=
  match d.coerceTo with
  | none => .ok (if d.name.toList.getLast? = some '*' then some .sharedPointer else none)
  | some name =>
      match c.find? name, Builtin.find? name with
      | some d, _ => .ok (some (d.typeHash c.hasher))
      | none, some b => .ok (some (b.hash c.hasher))
      | none, none => .error (.unknownType d.name name)

def resolve (c : Catalog) (owner name : String) : Except RegistryError Target :=
  match c.find? name, Builtin.find? name with
  | some d, _ => do
      let coercion ← c.coercionOf d
      .ok ⟨d.typeHash c.hasher, d.size, coercion, some d⟩
  | none, some b => .ok ⟨b.hash c.hasher, b.size, b.coercion, none⟩
  | none, none => .error (.unknownType owner name)

/-! ## Shapes -/

abbrev Shapes := Std.TreeMap String Shape

def lastOffset : Nat := 2 ^ 32 - 1

/-- The end of a field of elements of `size` bytes, kept within the offsets. -/
def fieldEnd (f : Field) (size : Nat) : Nat :=
  min (f.offset + min (f.count * size) lastOffset) lastOffset

def membersFor (shapeOf : String → Shapes → Except RegistryError (Shape × Shapes))
    (upper : Field → Shape → Option Nat) :
    List Field → Shapes → Except RegistryError (List Member × Shapes)
  | [], shapes => .ok ([], shapes)
  | f :: fields, shapes => do
      let (type, shapes) ← shapeOf f.typeName shapes
      let (members, shapes) ← membersFor shapeOf upper fields shapes
      .ok (.mk f.name type f.offset (upper f type) :: members, shapes)

/-- The shape of the type `name`, which `owner` refers to inside the declarations `outer`. The
first argument bounds the depth of the search. -/
def shapeOf (c : Catalog) : Nat → List String → String → String → Shapes →
    Except RegistryError (Shape × Shapes)
  | 0, _, _, name, _ => .error (.cycle name)
  | depth + 1, outer, owner, name, shapes =>
    match shapes[name]? with
    | some shape => .ok (shape, shapes)
    | none => do
        let target ← c.resolve owner name
        match target.declaration with
        | none => .ok (.primitive name target.size, shapes)
        | some d =>
            if outer.contains name then .error (.cycle name)
            let inner := c.shapeOf depth (name :: outer) name
            let (members, shapes) ← membersFor inner (fun f type => some (fieldEnd f type.size))
              d.fields shapes
            let (last, shapes) ← membersFor inner (fun _ _ => none) d.flexible.toList shapes
            let shape := Shape.mk name d.size d.isUnion d.flexible.isSome (members ++ last)
            .ok (shape, shapes.insert name shape)

def shapes (c : Catalog) : Except RegistryError Shapes :=
  c.declarations.foldlM (fun shapes d => do
    let (_, shapes) ← c.shapeOf (c.declarations.length + 1) [] d.name d.name shapes
    .ok shapes) {}

/-! ## Layouts -/

def elementEntries (name : String) (target : Target) (start finish offset : Nat) :
    List Layout.Entry :=
  target.hashes.map fun hash =>
    ⟨some name, offset, hash, ⟨(start : Int) - offset, (finish : Int) - offset⟩⟩

def elementsEnd? (start : Nat) (f : Field) (size : Nat) : Except RegistryError Nat :=
  (Word.add? start (f.count * size)).mapError .fault

def layElements (top : String) (entries : Nat → List Layout.Entry)
    (inside : Nat → Array Layout.Entry → Except RegistryError (Array Layout.Entry)) :
    Nat → Nat → Array Layout.Entry → Except RegistryError (Array Layout.Entry)
  | 0, _, out => .ok out
  | count + 1, i, out =>
      let out := out ++ entries i
      if 2 * mostEntries < out.size then .error (.layoutTooLarge top)
      else do
        let out ← inside i out
        layElements top entries inside count (i + 1) out

/-- Add to `out` the entries of all objects within `d` placed at `base`, for the layout of `top`.
The first argument bounds the depth of nesting. -/
def layFields (c : Catalog) (top : String) : Nat → Declaration → Nat → Array Layout.Entry →
    Except RegistryError (Array Layout.Entry)
  | 0, _, _, _ => .error (.cycle top)
  | depth + 1, d, base, out =>
    d.fields.foldlM (fun out f => do
      let target ← c.resolve d.name f.typeName
      let start := base + f.offset
      let finish ← elementsEnd? start f target.size
      if d.size < finish - base then .error (.fieldOutOfBounds d.name f.name)
      else
        layElements top (fun i => elementEntries f.name target start finish (start + i * target.size))
          (fun i out => match target.declaration with
            | none => .ok out
            | some child => c.layFields top depth child (start + i * target.size) out)
          f.count 0 out) out

/-- Add the entries of the flexible array of `d`, that is of one of its elements, and give its
offset and element size. -/
def layFlexible (c : Catalog) (d : Declaration) (out : Array Layout.Entry) :
    Except RegistryError (Option (Nat × Nat) × Array Layout.Entry) :=
  match d.flexible with
  | none => .ok (none, out)
  | some f => do
      let target ← c.resolve d.name f.typeName
      let out := out ++ target.hashes.map fun hash => Layout.Entry.mk (some f.name) f.offset hash .wide
      let out ← match target.declaration with
        | none => .ok out
        | some child => c.layFields d.name mostDepth child f.offset out
      .ok (some (f.offset, target.size), out)

structure Kept where
  entries : Array Layout.Entry
  seen : Std.TreeMap Nat (List TypeHash)

/-- Keep an entry unless one for the same offset and type is kept already. -/
def Kept.add (k : Kept) (e : Layout.Entry) : Kept :=
  let hashes := k.seen.getD e.offset []
  if hashes.contains e.hash then k
  else ⟨k.entries.push e, k.seen.insert e.offset (e.hash :: hashes)⟩

def firstOfEach (entries : Array Layout.Entry) : List Layout.Entry :=
  (entries.foldl Kept.add ⟨#[], {}⟩).entries.toList

def recordOf (c : Catalog) (shapes : Shapes) (d : Declaration) :
    Except RegistryError TypeRecord := do
  let coercion ← c.coercionOf d
  let out ← c.layFields d.name (mostDepth + 1) d 0
    (TypeRecord.selfEntries (d.typeHash c.hasher) coercion).toArray
  let (flexible, out) ← c.layFlexible d out
  let entries := firstOfEach out
  if mostEntries < entries.length then .error (.layoutTooLarge d.name)
  match Layout.Table.build? (d.tableHash c.hasher) entries, shapes[d.name]? with
  | none, _ => .error (.layoutTooLarge d.name)
  | some _, none => .error (.unknownType d.name d.name)
  | some table, some shape => .ok (.ofParts (d.typeHash c.hasher) shape flexible table coercion)

/-- The registry of the built-in types and all declared ones. -/
def build (c : Catalog) : Except RegistryError Registry := do
  let shapes ← c.shapes
  let records ← c.declarations.mapM (c.recordOf shapes)
  records.foldlM Registry.insert (Registry.builtins c.hasher)

end Catalog

def Registry.parse (hasher : NameHasher) (text : String) : Except RegistryError Registry := do
  (← Catalog.parse hasher text).build

end TypedHeap
