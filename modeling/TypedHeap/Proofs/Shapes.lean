import Mathlib.Data.List.Perm.Subperm
import TypedHeap.Proofs.Registration

/-! # Shapes without what was found before

The shapes of all declarations are found one after the other, and each is kept for the types that
refer to it. What is kept changes no shape: each one is that of its declaration, found by nesting
alone. And all are found if nesting finds each of them, since no type is searched for inside itself
then, and the search goes no deeper than there are declarations.
-/

namespace TypedHeap.Catalog

variable {c : Catalog} {t : Target} {owner name : String} {shape : Shape} {shapes shapes' : Shapes}

/-! ## Names -/

theorem resolve_owner (h : c.resolve owner name = .ok t) (other : String) :
    c.resolve other name = .ok t := by
  unfold resolve at h ⊢
  cases hd : c.find? name with
  | some d =>
      simp only [hd] at h ⊢
      exact h
  | none =>
      cases hb : Builtin.find? name with
      | some b =>
          simp only [hd, hb] at h ⊢
          exact h
      | none =>
          simp only [hd, hb] at h
          cases h

theorem declaration_of_resolve (h : c.resolve owner name = .ok t) :
    t.declaration = c.find? name := by
  unfold resolve at h
  split at h
  · next hd =>
    obtain ⟨_, _, h⟩ := ok_of_bind h
    obtain rfl := Except.ok.inj h
    exact hd.symm
  · next hd _ =>
    obtain rfl := Except.ok.inj h
    exact hd.symm
  · cases h

/-! ## Shapes by nesting -/

def membersOf (shapeOf : String → Option Shape) (upper : Field → Shape → Option Nat) :
    List Field → Option (List Member)
  | [] => some []
  | f :: fields => do
      let type ← shapeOf f.typeName
      let members ← membersOf shapeOf upper fields
      some (.mk f.name type f.offset (upper f type) :: members)

/-- The shape of the type `name`, if declarations are nested at most `depth` levels deep in it. -/
def shapeWithin (c : Catalog) : Nat → String → Option Shape
  | 0, _ => none
  | depth + 1, name => do
      let target ← (c.resolve name name).toOption
      match target.declaration with
      | none => some (.primitive name target.size)
      | some d =>
          let members ← membersOf (c.shapeWithin depth)
            (fun f type => some (fieldEnd f type.size)) d.fields
          let last ← membersOf (c.shapeWithin depth) (fun _ _ => none) d.flexible.toList
          some (.mk name d.size d.isUnion d.flexible.isSome (members ++ last))

def HasShape (c : Catalog) (name : String) (shape : Shape) : Prop :=
  ∃ depth, c.shapeWithin depth name = some shape

theorem membersOf_mono {first second : String → Option Shape}
    (hmono : ∀ name shape, first name = some shape → second name = some shape)
    {upper : Field → Shape → Option Nat} {fields : List Field} {members : List Member}
    (h : membersOf first upper fields = some members) :
    membersOf second upper fields = some members := by
  induction fields generalizing members with
  | nil => exact h
  | cons f fields ih =>
      obtain ⟨type, htype, h⟩ := Option.bind_eq_some_iff.mp h
      obtain ⟨rest, hrest, h⟩ := Option.bind_eq_some_iff.mp h
      refine Option.bind_eq_some_iff.mpr ⟨type, hmono _ _ htype, ?_⟩
      exact Option.bind_eq_some_iff.mpr ⟨rest, ih hrest, h⟩

theorem shape_of_membersOf {shapeOf : String → Option Shape} {upper : Field → Shape → Option Nat}
    {fields : List Field} {members : List Member}
    (h : membersOf shapeOf upper fields = some members) :
    ∀ f ∈ fields, (shapeOf f.typeName).isSome = true := by
  induction fields generalizing members with
  | nil => exact nofun
  | cons f fields ih =>
      obtain ⟨type, htype, h⟩ := Option.bind_eq_some_iff.mp h
      obtain ⟨rest, hrest, _⟩ := Option.bind_eq_some_iff.mp h
      exact List.forall_mem_cons.mpr ⟨by rw [htype]; rfl, ih hrest⟩

theorem mem_membersOf {shapeOf : String → Option Shape} {upper : Field → Shape → Option Nat}
    {fields : List Field} {members : List Member}
    (h : membersOf shapeOf upper fields = some members) {m : Member} (hm : m ∈ members) :
    ∃ f ∈ fields, ∃ type, shapeOf f.typeName = some type ∧
      m = .mk f.name type f.offset (upper f type) := by
  induction fields generalizing members with
  | nil =>
      obtain rfl := Option.some.inj h
      cases hm
  | cons f fields ih =>
      obtain ⟨type, htype, h⟩ := Option.bind_eq_some_iff.mp h
      obtain ⟨rest, hrest, h⟩ := Option.bind_eq_some_iff.mp h
      obtain rfl := Option.some.inj h
      cases hm with
      | head => exact ⟨f, List.mem_cons_self, type, htype, rfl⟩
      | tail _ hm =>
          obtain ⟨g, hg, found⟩ := ih hrest hm
          exact ⟨g, List.mem_cons_of_mem f hg, found⟩

/-- What it takes to find a shape: a built-in type, or the shapes of all fields one level below. -/
theorem shapeWithin_eq_some {depth : Nat} (h : c.shapeWithin (depth + 1) name = some shape) :
    ∃ t, c.resolve name name = .ok t ∧
      (t.declaration = none ∧ shape = .primitive name t.size ∨
        ∃ d members last, t.declaration = some d ∧
          membersOf (c.shapeWithin depth) (fun f type => some (fieldEnd f type.size)) d.fields =
            some members ∧
          membersOf (c.shapeWithin depth) (fun _ _ => none) d.flexible.toList = some last ∧
          shape = .mk name d.size d.isUnion d.flexible.isSome (members ++ last)) := by
  rw [shapeWithin] at h
  obtain ⟨target, hresolve, h⟩ := Option.bind_eq_some_iff.mp h
  have hok : c.resolve name name = .ok target := by
    cases hr : c.resolve name name with
    | error e =>
        rw [hr] at hresolve
        cases hresolve
    | ok other =>
        rw [hr] at hresolve
        exact congrArg _ (Option.some.inj hresolve)
  refine ⟨target, hok, ?_⟩
  cases hd : target.declaration with
  | none =>
      simp only [hd] at h
      exact .inl ⟨rfl, (Option.some.inj h).symm⟩
  | some d =>
      simp only [hd] at h
      obtain ⟨members, hmembers, h⟩ := Option.bind_eq_some_iff.mp h
      obtain ⟨last, hlast, h⟩ := Option.bind_eq_some_iff.mp h
      exact .inr ⟨d, members, last, rfl, hmembers, hlast, (Option.some.inj h).symm⟩

theorem shapeWithin_of_builtin (hresolve : c.resolve name name = .ok t)
    (hd : t.declaration = none) (depth : Nat) :
    c.shapeWithin (depth + 1) name = some (.primitive name t.size) := by
  simp only [shapeWithin, hresolve, Except.toOption, Option.bind_eq_bind, Option.bind_some, hd]

theorem shapeWithin_of_declared {d : Declaration} (hresolve : c.resolve name name = .ok t)
    (hd : t.declaration = some d) {members last : List Member} {depth : Nat}
    (hmembers : membersOf (c.shapeWithin depth) (fun f type => some (fieldEnd f type.size))
      d.fields = some members)
    (hlast : membersOf (c.shapeWithin depth) (fun _ _ => none) d.flexible.toList = some last) :
    c.shapeWithin (depth + 1) name =
      some (.mk name d.size d.isUnion d.flexible.isSome (members ++ last)) := by
  simp only [shapeWithin, hresolve, Except.toOption, Option.bind_eq_bind, Option.bind_some, hd,
    hmembers, hlast]

theorem shapeWithin_succ {depth : Nat} (h : c.shapeWithin depth name = some shape) :
    c.shapeWithin (depth + 1) name = some shape := by
  induction depth generalizing name shape with
  | zero => cases h
  | succ depth ih =>
      obtain ⟨target, hresolve, h⟩ := shapeWithin_eq_some h
      rcases h with ⟨hd, rfl⟩ | ⟨d, members, last, hd, hmembers, hlast, rfl⟩
      · exact shapeWithin_of_builtin hresolve hd (depth + 1)
      · exact shapeWithin_of_declared hresolve hd (membersOf_mono (fun _ _ => ih) hmembers)
          (membersOf_mono (fun _ _ => ih) hlast)

theorem shapeWithin_mono {depth depth' : Nat} (hle : depth ≤ depth')
    (h : c.shapeWithin depth name = some shape) : c.shapeWithin depth' name = some shape := by
  induction hle with
  | refl => exact h
  | step _ ih => exact shapeWithin_succ ih

theorem HasShape.unique {other : Shape} (h : c.HasShape name shape) (h' : c.HasShape name other) :
    shape = other := by
  obtain ⟨n, hn⟩ := h
  obtain ⟨m, hm⟩ := h'
  have hfirst := shapeWithin_mono (Nat.le_max_left n m) hn
  have hsecond := shapeWithin_mono (Nat.le_max_right n m) hm
  exact Option.some.inj (hfirst.symm.trans hsecond)

theorem hasShape_declared {d : Declaration} (hresolve : c.resolve owner name = .ok t)
    (hd : t.declaration = some d) {members last : List Member} {n m : Nat}
    (hmembers : membersOf (c.shapeWithin n) (fun f type => some (fieldEnd f type.size)) d.fields =
      some members)
    (hlast : membersOf (c.shapeWithin m) (fun _ _ => none) d.flexible.toList = some last) :
    c.HasShape name (.mk name d.size d.isUnion d.flexible.isSome (members ++ last)) := by
  have hfirst := membersOf_mono (fun _ _ => shapeWithin_mono (Nat.le_max_left n m)) hmembers
  have hsecond := membersOf_mono (fun _ _ => shapeWithin_mono (Nat.le_max_right n m)) hlast
  exact ⟨max n m + 1, shapeWithin_of_declared (resolve_owner hresolve name) hd hfirst hsecond⟩

/-! ## What is found is right -/

def Right (c : Catalog) (shapes : Shapes) : Prop :=
  ∀ name shape, shapes[name]? = some shape → c.HasShape name shape

/-- The second shapes are right, and all of the first ones are among them. -/
structure Extends (c : Catalog) (shapes shapes' : Shapes) : Prop where
  right : c.Right shapes'
  keeps (name : String) (shape : Shape) : shapes[name]? = some shape → shapes'[name]? = some shape

theorem Extends.refl (hs : c.Right shapes) : c.Extends shapes shapes := ⟨hs, fun _ _ => id⟩

theorem Extends.trans {shapes'' : Shapes} (h : c.Extends shapes shapes')
    (h' : c.Extends shapes' shapes'') : c.Extends shapes shapes'' :=
  ⟨h'.right, fun name shape hget => h'.keeps name shape (h.keeps name shape hget)⟩

/-- A shape that is right may be kept, whether or not it was found before. -/
theorem Extends.insert (h : c.Extends shapes shapes') (hshape : c.HasShape name shape) :
    c.Extends shapes (shapes'.insert name shape) := by
  have hinsert (other : String) (found : Shape) (hget : shapes'[other]? = some found) :
      (shapes'.insert name shape)[other]? = some found := by
    rw [Std.TreeMap.getElem?_insert]
    split
    · next heq =>
      obtain rfl := Std.LawfulEqCmp.eq_of_compare heq
      rw [hshape.unique (h.right _ _ hget)]
    · exact hget
  refine ⟨fun other found hget => ?_, fun other found hget => hinsert _ _ (h.keeps _ _ hget)⟩
  rw [Std.TreeMap.getElem?_insert] at hget
  split at hget
  · next heq =>
    obtain rfl := Std.LawfulEqCmp.eq_of_compare heq
    exact Option.some.inj hget ▸ hshape
  · exact h.right other found hget

theorem membersFor_right {shapeOf : String → Shapes → Except RegistryError (Shape × Shapes)}
    (hshapeOf : ∀ name shapes shape shapes', c.Right shapes →
      shapeOf name shapes = .ok (shape, shapes') →
      c.HasShape name shape ∧ c.Extends shapes shapes')
    {upper : Field → Shape → Option Nat} {fields : List Field} {members : List Member}
    (hs : c.Right shapes) (h : membersFor shapeOf upper fields shapes = .ok (members, shapes')) :
    (∃ depth, membersOf (c.shapeWithin depth) upper fields = some members) ∧
      c.Extends shapes shapes' := by
  induction fields generalizing shapes members with
  | nil =>
      obtain ⟨rfl, rfl⟩ := Prod.mk.inj (Except.ok.inj h)
      exact ⟨⟨0, rfl⟩, .refl hs⟩
  | cons f fields ih =>
      obtain ⟨⟨type, between⟩, hfirst, h⟩ := ok_of_bind h
      obtain ⟨⟨rest, last⟩, hrest, h⟩ := ok_of_bind h
      obtain ⟨rfl, rfl⟩ := Prod.mk.inj (Except.ok.inj h)
      obtain ⟨⟨n, htype⟩, hbetween⟩ := hshapeOf _ _ _ _ hs hfirst
      obtain ⟨⟨m, hmembers⟩, hlast⟩ := ih hbetween.right hrest
      refine ⟨⟨max n m, ?_⟩, hbetween.trans hlast⟩
      refine Option.bind_eq_some_iff.mpr
        ⟨type, shapeWithin_mono (Nat.le_max_left n m) htype, ?_⟩
      exact Option.bind_eq_some_iff.mpr
        ⟨rest, membersOf_mono (fun _ _ => shapeWithin_mono (Nat.le_max_right n m)) hmembers, rfl⟩

/-- A shape that is found is that of its type, and it is kept if the type is declared. -/
theorem shapeOf_right {depth : Nat} {outer : List String} (hs : c.Right shapes)
    (h : c.shapeOf depth outer owner name shapes = .ok (shape, shapes')) :
    c.HasShape name shape ∧ c.Extends shapes shapes' ∧
      ((c.find? name).isSome = true → shapes'[name]? = some shape) := by
  induction depth generalizing outer owner name shapes shape shapes' with
  | zero => cases h
  | succ depth ih =>
      rw [shapeOf] at h
      split at h
      · next found hfound =>
        obtain ⟨rfl, rfl⟩ := Prod.mk.inj (Except.ok.inj h)
        exact ⟨hs _ _ hfound, .refl hs, fun _ => hfound⟩
      · obtain ⟨target, hresolve, h⟩ := ok_of_bind h
        split at h
        · next hd =>
          obtain ⟨rfl, rfl⟩ := Prod.mk.inj (Except.ok.inj h)
          have hshape := shapeWithin_of_builtin (resolve_owner hresolve name) hd 0
          refine ⟨⟨1, hshape⟩, .refl hs, fun hdeclared => ?_⟩
          rw [← declaration_of_resolve hresolve, hd] at hdeclared
          cases hdeclared
        · next d hd =>
          dsimp only at h
          split at h
          · cases h
          · obtain ⟨⟨members, between⟩, hmembers, h⟩ := ok_of_bind h
            obtain ⟨⟨last, _⟩, hlast, h⟩ := ok_of_bind h
            obtain ⟨rfl, rfl⟩ := Prod.mk.inj (Except.ok.inj h)
            have hinner {outer : List String} {owner : String} (name : String) (shapes : Shapes)
                (shape : Shape) (shapes' : Shapes) (hs : c.Right shapes)
                (h : c.shapeOf depth outer owner name shapes = .ok (shape, shapes')) :
                c.HasShape name shape ∧ c.Extends shapes shapes' :=
              ⟨(ih hs h).1, (ih hs h).2.1⟩
            obtain ⟨⟨n, hfirst⟩, hbetween⟩ := membersFor_right hinner hs hmembers
            obtain ⟨⟨m, hsecond⟩, hend⟩ := membersFor_right hinner hbetween.right hlast
            have hshape := hasShape_declared hresolve hd hfirst hsecond
            refine ⟨hshape, (hbetween.trans hend).insert hshape, fun _ => ?_⟩
            rw [Std.TreeMap.getElem?_insert_self]

/-! ## What is right is found -/

theorem membersFor_complete {shapeOf : String → Shapes → Except RegistryError (Shape × Shapes)}
    {depth : Nat}
    (hshapeOf : ∀ name shape shapes, c.Right shapes → c.shapeWithin depth name = some shape →
      ∃ shapes', shapeOf name shapes = .ok (shape, shapes') ∧ c.Right shapes')
    {upper : Field → Shape → Option Nat} {fields : List Field} {members : List Member}
    (hs : c.Right shapes) (h : membersOf (c.shapeWithin depth) upper fields = some members) :
    ∃ shapes', membersFor shapeOf upper fields shapes = .ok (members, shapes') ∧
      c.Right shapes' := by
  induction fields generalizing shapes members with
  | nil =>
      obtain rfl := Option.some.inj h
      exact ⟨shapes, rfl, hs⟩
  | cons f fields ih =>
      obtain ⟨type, htype, h⟩ := Option.bind_eq_some_iff.mp h
      obtain ⟨rest, hrest, h⟩ := Option.bind_eq_some_iff.mp h
      obtain rfl := Option.some.inj h
      obtain ⟨between, hfirst, hbetween⟩ := hshapeOf _ _ _ hs htype
      obtain ⟨last, hsecond, hlast⟩ := ih hbetween hrest
      refine ⟨last, ?_, hlast⟩
      rw [membersFor, hfirst]
      show (membersFor shapeOf upper fields between >>= _) = _
      rw [hsecond]
      rfl

/-- The declarations that are searched inside each other are no more than there are. -/
theorem length_outer_le {outer : List String} (hnodup : outer.Nodup)
    (hdeclared : ∀ a ∈ outer, (c.find? a).isSome = true) :
    outer.length ≤ c.declarations.length := by
  have hsubset : outer ⊆ c.declarations.map (·.name) := fun a ha => by
    obtain ⟨d, hd⟩ := Option.isSome_iff_exists.mp (hdeclared a ha)
    obtain ⟨hmem, rfl⟩ := mem_of_find? hd
    exact List.mem_map_of_mem hmem
  have hle := (hnodup.subperm hsubset).length_le
  rwa [List.length_map] at hle

theorem shapeOf_of_builtin {depth : Nat} {outer : List String} (hnew : shapes[name]? = none)
    (hresolve : c.resolve owner name = .ok t) (hd : t.declaration = none) :
    c.shapeOf (depth + 1) outer owner name shapes = .ok (.primitive name t.size, shapes) := by
  rw [shapeOf, hnew, hresolve]
  show (match t.declaration with
    | none => _
    | some d => _) = _
  rw [hd]

theorem shapeOf_of_declared {depth : Nat} {outer : List String} {d : Declaration}
    (hnew : shapes[name]? = none) (hresolve : c.resolve owner name = .ok t)
    (hd : t.declaration = some d) (houter : name ∉ outer) {members last : List Member}
    {between : Shapes}
    (hmembers : membersFor (c.shapeOf depth (name :: outer) name)
      (fun f type => some (fieldEnd f type.size)) d.fields shapes = .ok (members, between))
    (hlast : membersFor (c.shapeOf depth (name :: outer) name) (fun _ _ => none)
      d.flexible.toList between = .ok (last, shapes')) :
    c.shapeOf (depth + 1) outer owner name shapes =
      .ok (.mk name d.size d.isUnion d.flexible.isSome (members ++ last),
        shapes'.insert name (.mk name d.size d.isUnion d.flexible.isSome (members ++ last))) := by
  have hcontains : outer.contains name = false := by simpa using houter
  rw [shapeOf, hnew, hresolve]
  show (match t.declaration with
    | none => _
    | some d => _) = _
  simp only [hd, hcontains, Bool.false_eq_true, if_false, hmembers]
  show (membersFor _ _ _ between >>= _) = _
  rw [hlast]
  rfl

/-- A type of some shape is found inside types whose shapes need deeper nesting. -/
theorem shapeOf_complete {n depth : Nat} {outer : List String} (hs : c.Right shapes)
    (hshape : c.shapeWithin n name = some shape) (hnodup : outer.Nodup)
    (hdeclared : ∀ a ∈ outer, (c.find? a).isSome = true)
    (hdeeper : ∀ a ∈ outer, c.shapeWithin n a = none)
    (hdepth : depth + outer.length = c.declarations.length + 1) :
    ∃ shapes', c.shapeOf depth outer owner name shapes = .ok (shape, shapes') := by
  induction n generalizing depth outer owner name shape shapes with
  | zero => cases hshape
  | succ n ih =>
      have hdeeper' (a : String) (ha : a ∈ outer) : c.shapeWithin n a = none := by
        refine Option.eq_none_iff_forall_ne_some.mpr fun found hfound => ?_
        exact nomatch (hdeeper a ha).symm.trans (shapeWithin_succ hfound)
      -- the least nesting at which the shape is found decides
      cases hless : c.shapeWithin n name with
      | some found =>
          obtain rfl := Option.some.inj (hshape.symm.trans (shapeWithin_succ hless))
          exact ih hs hless hnodup hdeclared hdeeper' hdepth
      | none =>
          have hle := length_outer_le hnodup hdeclared
          obtain ⟨depth, rfl⟩ : ∃ k, depth = k + 1 := ⟨depth - 1, by omega⟩
          cases hnew : shapes[name]? with
          | some found =>
              obtain rfl := (hs _ _ hnew).unique ⟨_, hshape⟩
              exact ⟨shapes, by rw [shapeOf, hnew]⟩
          | none =>
              have houter : name ∉ outer := fun hmem =>
                nomatch (hdeeper name hmem).symm.trans hshape
              obtain ⟨target, hresolve, hshape⟩ := shapeWithin_eq_some hshape
              have hresolved := resolve_owner hresolve owner
              rcases hshape with ⟨hd, rfl⟩ | ⟨d, members, last, hd, hmembers, hlast, rfl⟩
              · exact ⟨shapes, shapeOf_of_builtin hnew hresolved hd⟩
              · have hname : (c.find? name).isSome = true := by
                  rw [← declaration_of_resolve hresolved, hd]
                  rfl
                -- what the fields refer to is found inside the declaration, with one level less
                have hinner (other : String) (shape : Shape) (shapes : Shapes)
                    (hs : c.Right shapes) (hshape : c.shapeWithin n other = some shape) :
                    ∃ shapes', c.shapeOf depth (name :: outer) name other shapes =
                      .ok (shape, shapes') ∧ c.Right shapes' := by
                  have hlength : depth + (name :: outer).length = c.declarations.length + 1 := by
                    rw [List.length_cons]
                    omega
                  obtain ⟨shapes', hfound⟩ := ih hs hshape (List.nodup_cons.mpr ⟨houter, hnodup⟩)
                    (List.forall_mem_cons.mpr ⟨hname, hdeclared⟩)
                    (List.forall_mem_cons.mpr ⟨hless, hdeeper'⟩) hlength
                  exact ⟨shapes', hfound, (shapeOf_right hs hfound).2.1.right⟩
                obtain ⟨between, hfirst, hbetween⟩ := membersFor_complete hinner hs hmembers
                obtain ⟨_, hsecond, _⟩ := membersFor_complete hinner hbetween hlast
                exact ⟨_, shapeOf_of_declared hnew hresolved hd houter hfirst hsecond⟩

def shapesFor (c : Catalog) (ds : List Declaration) (shapes : Shapes) :
    Except RegistryError Shapes :=
  ds.foldlM (fun shapes d => do
    let (_, shapes) ← c.shapeOf (c.declarations.length + 1) [] d.name d.name shapes
    .ok shapes) shapes

theorem shapesFor_right {ds : List Declaration} (hs : c.Right shapes)
    (h : c.shapesFor ds shapes = .ok shapes') :
    c.Extends shapes shapes' ∧
      ∀ d ∈ ds, (c.find? d.name).isSome = true → ∃ shape, shapes'[d.name]? = some shape := by
  induction ds generalizing shapes with
  | nil =>
      obtain rfl := Except.ok.inj h
      exact ⟨.refl hs, nofun⟩
  | cons d ds ih =>
      rw [shapesFor, List.foldlM_cons] at h
      obtain ⟨between, hfirst, h⟩ := ok_of_bind h
      obtain ⟨⟨shape, _⟩, hshape, hfirst⟩ := ok_of_bind hfirst
      obtain rfl := Except.ok.inj hfirst
      obtain ⟨_, hextends, hkept⟩ := shapeOf_right hs hshape
      obtain ⟨hlater, hall⟩ := ih hextends.right h
      refine ⟨hextends.trans hlater, List.forall_mem_cons.mpr ⟨fun hd => ?_, hall⟩⟩
      exact ⟨shape, hlater.keeps _ _ (hkept hd)⟩

theorem shapesFor_complete {ds : List Declaration} (hs : c.Right shapes)
    (hall : ∀ d ∈ ds, ∃ shape, c.HasShape d.name shape) :
    ∃ shapes', c.shapesFor ds shapes = .ok shapes' := by
  induction ds generalizing shapes with
  | nil => exact ⟨shapes, rfl⟩
  | cons d ds ih =>
      obtain ⟨⟨shape, n, hshape⟩, hrest⟩ := List.forall_mem_cons.mp hall
      have hfirst : ∃ between, c.shapeOf (c.declarations.length + 1) [] d.name d.name shapes =
          .ok (shape, between) := shapeOf_complete hs hshape .nil nofun nofun rfl
      obtain ⟨between, hfound⟩ := hfirst
      obtain ⟨last, hlast⟩ := ih (shapeOf_right hs hfound).2.1.right hrest
      refine ⟨last, ?_⟩
      rw [shapesFor, List.foldlM_cons, hfound]
      exact hlast

theorem right_empty : c.Right {} := fun name shape hget => by simp at hget

/-- The shapes that are found are those of the declarations, each of which has one. -/
theorem shapes_eq_ok (h : c.shapes = .ok shapes) {d : Declaration} (hd : d ∈ c.declarations) :
    ∃ shape, shapes[d.name]? = some shape ∧ c.HasShape d.name shape := by
  obtain ⟨hextends, hall⟩ := shapesFor_right right_empty h
  have hnamed : (c.find? d.name).isSome = true :=
    List.find?_isSome.mpr ⟨d, hd, decide_eq_true rfl⟩
  obtain ⟨shape, hshape⟩ := hall d hd hnamed
  exact ⟨shape, hshape, hextends.right _ _ hshape⟩

theorem shapes_complete (hall : ∀ d ∈ c.declarations, ∃ shape, c.HasShape d.name shape) :
    ∃ shapes, c.shapes = .ok shapes := shapesFor_complete right_empty hall

end TypedHeap.Catalog
