import TypedHeap.Proofs.Registration

/-! # Layouts of registered types

The table of a type has one entry for each offset and type under which an object is contained in it:
that of the first such object in pre-order. A flexible array comes last, and counts with one of its
elements.
-/

namespace TypedHeap

open Layout (Entry)

/-- A search of the lists that the elements of an ordered list stand for ends in the first element
that has what is searched for. -/
theorem find?_flatMap_ordered {α β : Type} {R : α → α → Prop} {l : List α} (hl : l.Pairwise R)
    (f : α → List β) (p : β → Bool) :
    (∃ a ∈ l, ∃ b, (f a).find? p = some b ∧ (l.flatMap f).find? p = some b ∧
      ∀ other ∈ l, (f other).find? p ≠ none → other = a ∨ R a other) ∨
    (∀ a ∈ l, (f a).find? p = none) ∧ (l.flatMap f).find? p = none := by
  rw [List.find?_flatMap]
  cases hfind : l.findSome? fun a => (f a).find? p with
  | none => exact .inr ⟨List.findSome?_eq_none_iff.mp hfind, rfl⟩
  | some b =>
      obtain ⟨front, a, back, rfl, hb, hfront⟩ := List.findSome?_eq_some_iff.mp hfind
      refine .inl ⟨a, by simp, b, hb, rfl, ?_⟩
      intro other hother hfound
      have hrest := (List.pairwise_append.mp hl).2.1
      rcases List.mem_append.mp hother with hearly | hlate
      · exact absurd (hfront other hearly) hfound
      · rcases List.mem_cons.mp hlate with rfl | hback
        · exact .inl rfl
        · exact .inr ((List.pairwise_cons.mp hrest).1 other hback)

theorem find?_map_isFor {entry : TypeHash → Entry} {place : Nat}
    (hentry : ∀ hash, (entry hash).hash = hash ∧ (entry hash).offset = place)
    (hashes : List TypeHash) (hash : TypeHash) (offset : Nat) :
    (hashes.map entry).find? (·.isFor hash offset) =
      if hash ∈ hashes ∧ place = offset then some (entry hash) else none := by
  induction hashes with
  | nil => rfl
  | cons first hashes ih =>
      have hfirst : (entry first).isFor hash offset = true ↔ first = hash ∧ place = offset := by
        rw [Entry.isFor_iff, (hentry first).1, (hentry first).2]
      rw [List.map_cons, List.find?_cons, ih]
      split
      · next hfor =>
        obtain ⟨rfl, rfl⟩ := hfirst.mp hfor
        simp
      · next hnot =>
        have hother : ¬ (first = hash ∧ place = offset) := fun h => by simp [hfirst.mpr h] at hnot
        congr 1
        rw [List.mem_cons, eq_iff_iff]
        grind

/-- A search of the entries of objects in order finds the first object that has the hash there. -/
theorem find?_flatMap_isFor {α : Type} {R : α → α → Prop} {l : List α} (hl : l.Pairwise R)
    (entry : α → TypeHash → Entry) {place : α → Nat} (hashes : α → List TypeHash)
    (hentry : ∀ a hash, (entry a hash).hash = hash ∧ (entry a hash).offset = place a)
    (hash : TypeHash) (offset : Nat) :
    (∃ a ∈ l, (hash ∈ hashes a ∧ place a = offset) ∧
      (∀ other ∈ l, hash ∈ hashes other ∧ place other = offset → other = a ∨ R a other) ∧
      (l.flatMap fun a => (hashes a).map (entry a)).find? (·.isFor hash offset) =
        some (entry a hash)) ∨
    (∀ a ∈ l, ¬ (hash ∈ hashes a ∧ place a = offset)) ∧
      (l.flatMap fun a => (hashes a).map (entry a)).find? (·.isFor hash offset) = none := by
  have heach (a : α) := find?_map_isFor (hentry a) (hashes a) hash offset
  rcases find?_flatMap_ordered hl (fun a => (hashes a).map (entry a)) (·.isFor hash offset) with
    ⟨a, ha, e, he, hfind, hleast⟩ | ⟨hnone, hfind⟩
  · rw [heach] at he
    split at he
    · next hfor =>
      obtain rfl := Option.some.inj he
      refine .inl ⟨a, ha, hfor, fun other hother hotherFor => hleast other hother ?_, hfind⟩
      rw [heach, if_pos hotherFor]
      exact nofun
    · cases he
  · refine .inr ⟨fun a ha hfor => ?_, hfind⟩
    have hmissed := hnone a ha
    rw [heach, if_pos hfor] at hmissed
    cases hmissed

/-- An object contained in another one. -/
structure Occurrence where
  path : List (Nat × Nat)
  /-- The field that it is an element of. -/
  name : Option String
  offset : Nat
  /-- The range of that field, unless it is a flexible array. -/
  field : Option (Nat × Nat)
  target : Catalog.Target

namespace Occurrence

def whole (t : Catalog.Target) : Occurrence := ⟨[], none, 0, none, t⟩

def ofPart (p : Part) : Occurrence :=
  ⟨p.path, some p.name, p.offset, some (p.start, p.finish), p.target⟩

/-- The one element that counts of the flexible array `f`, which lies behind `i` fields. -/
def flexible (f : Field) (i : Nat) (target : Catalog.Target) : Occurrence :=
  ⟨[(i, 0)], some f.name, f.offset, none, target⟩

def reach (o : Occurrence) : Reach :=
  match o.field with
  | none => .wide
  | some (start, finish) => ⟨(start : Int) - o.offset, (finish : Int) - o.offset⟩

def entry (o : Occurrence) (hash : TypeHash) : Entry := ⟨o.name, o.offset, hash, o.reach⟩

def entries (o : Occurrence) : List Entry := o.target.hashes.map o.entry

theorem entries_ofPart (p : Part) : (ofPart p).entries = p.entries 0 := by
  simp only [entries, ofPart, Part.entries, Catalog.elementEntries, Nat.zero_add]
  rfl

theorem entries_ofPart_under (p : Part) (i k shift : Nat) :
    (ofPart (p.under i k shift)).entries = p.entries shift := by
  rw [entries_ofPart, Part.entries_under, Nat.zero_add]

end Occurrence

namespace Catalog

variable {c : Catalog} {t : Target} {d : Declaration} {hash : TypeHash} {offset : Nat}
  {o : Occurrence} {os : List Occurrence}

/-- What an object of the type `t` contains: itself, the parts that its declaration places, and one
element of its flexible array with the parts of that. -/
inductive Contains (c : Catalog) (t : Target) : Occurrence → Prop where
  | whole : Contains c t (.whole t)
  | part {p : Part} (held : c.Holds t p) : Contains c t (.ofPart p)
  | flexible {d : Declaration} {f : Field} {target : Target} (declared : t.declaration = some d)
      (last : d.flexible = some f) (named : c.resolve d.name f.typeName = .ok target) :
      Contains c t (.flexible f d.fields.length target)
  | within {d : Declaration} {f : Field} {target : Target} {p : Part}
      (declared : t.declaration = some d) (last : d.flexible = some f)
      (named : c.resolve d.name f.typeName = .ok target) (inner : c.Holds target p) :
      Contains c t (.ofPart (p.under d.fields.length 0 f.offset))

/-- An object that `hash` stands for is contained in one of the type `t`, at `offset`. -/
structure Occurs (c : Catalog) (t : Target) (hash : TypeHash) (offset : Nat) (o : Occurrence) :
    Prop where
  contained : c.Contains t o
  named : hash ∈ o.target.hashes
  offset_eq : o.offset = offset

/-- It is the first of its kind in pre-order. -/
structure Foremost (c : Catalog) (t : Target) (hash : TypeHash) (offset : Nat) (o : Occurrence) :
    Prop where
  occurs : c.Occurs t hash offset o
  least {other : Occurrence} :
    c.Occurs t hash offset other → other = o ∨ Before o.path other.path

theorem Foremost.unique {other : Occurrence} (h : c.Foremost t hash offset o)
    (h' : c.Foremost t hash offset other) : other = o := by
  rcases h.least h'.occurs with heq | hbefore
  · exact heq
  · rcases h'.least h.occurs with heq | hbefore'
    · exact heq.symm
    · exact absurd hbefore' hbefore.asymm

/-! ## The objects in order -/

/-- `os` is all that an object of the type contains, in pre-order. -/
structure Lists (c : Catalog) (t : Target) (os : List Occurrence) : Prop where
  mem_iff (o : Occurrence) : o ∈ os ↔ c.Contains t o
  ordered : os.Pairwise fun a b => Before a.path b.path

theorem Lists.search (h : c.Lists t os) (hash : TypeHash) (offset : Nat) :
    (∃ o, c.Foremost t hash offset o ∧
      (os.flatMap Occurrence.entries).find? (·.isFor hash offset) = some (o.entry hash)) ∨
    ((∀ o, ¬ c.Occurs t hash offset o) ∧
      (os.flatMap Occurrence.entries).find? (·.isFor hash offset) = none) := by
  have hoccurs (o : Occurrence) :
      c.Occurs t hash offset o ↔ o ∈ os ∧ hash ∈ o.target.hashes ∧ o.offset = offset :=
    ⟨fun ho => ⟨(h.mem_iff o).mpr ho.contained, ho.named, ho.offset_eq⟩,
      fun ⟨ho, hnamed, hoffset⟩ => ⟨(h.mem_iff o).mp ho, hnamed, hoffset⟩⟩
  rcases find?_flatMap_isFor h.ordered Occurrence.entry (fun o => o.target.hashes)
      (fun _ _ => ⟨rfl, rfl⟩) hash offset with
    ⟨o, ho, hmatch, hleast, hfind⟩ | ⟨hnone, hfind⟩
  · refine .inl ⟨o, ⟨(hoccurs o).mpr ⟨ho, hmatch⟩, fun {other} hother => ?_⟩, hfind⟩
    obtain ⟨hin, hfor⟩ := (hoccurs other).mp hother
    exact hleast other hin hfor
  · refine .inr ⟨fun o hocc => ?_, hfind⟩
    obtain ⟨hin, hfor⟩ := (hoccurs o).mp hocc
    exact hnone o hin hfor

theorem Lists.foremost_of_find? (h : c.Lists t os) {e : Entry}
    (he : (os.flatMap Occurrence.entries).find? (·.isFor hash offset) = some e) :
    ∃ o, c.Foremost t hash offset o ∧ e = o.entry hash := by
  rcases h.search hash offset with ⟨o, ho, hfind⟩ | ⟨_, hfind⟩
  · exact ⟨o, ho, Option.some.inj (he.symm.trans hfind)⟩
  · exact nomatch he.symm.trans hfind

theorem Places.knows {p : Part} (h : c.Places d p) : c.Knows p.target := by
  induction h with
  | element _ named _ => exact (knows_of_resolve named).1
  | within _ _ _ _ _ ih => exact ih

theorem Contains.knows (known : c.Knows t) (h : c.Contains t o) : c.Knows o.target := by
  cases h with
  | whole => exact known
  | part held =>
      obtain ⟨_, _, hplaces⟩ := held
      exact hplaces.knows
  | flexible _ _ named => exact (knows_of_resolve named).1
  | within _ _ _ inner =>
      obtain ⟨_, _, hplaces⟩ := inner
      exact hplaces.knows

def InFlexible (c : Catalog) (d : Declaration) (o : Occurrence) : Prop :=
  ∃ f target, d.flexible = some f ∧ c.resolve d.name f.typeName = .ok target ∧
    (o = .flexible f d.fields.length target ∨
      ∃ p, c.Holds target p ∧ o = .ofPart (p.under d.fields.length 0 f.offset))

theorem contains_iff : c.Contains t o ↔ o = .whole t ∨ (∃ p, c.Holds t p ∧ o = .ofPart p) ∨
    ∃ d, t.declaration = some d ∧ c.InFlexible d o := by
  constructor
  · intro h
    cases h with
    | whole => exact .inl rfl
    | part held => exact .inr (.inl ⟨_, held, rfl⟩)
    | flexible declared last named =>
        exact .inr (.inr ⟨_, declared, _, _, last, named, .inl rfl⟩)
    | within declared last named inner =>
        exact .inr (.inr ⟨_, declared, _, _, last, named, .inr ⟨_, inner, rfl⟩⟩)
  · intro h
    rcases h with rfl | ⟨p, held, rfl⟩ | ⟨d, declared, f, target, last, named, rfl | ⟨p, inner, rfl⟩⟩
    · exact .whole
    · exact .part held
    · exact .flexible declared last named
    · exact .within declared last named inner

theorem inFlexible_iff {f : Field} {target : Target} (last : d.flexible = some f)
    (named : c.resolve d.name f.typeName = .ok target) :
    c.InFlexible d o ↔ o = .flexible f d.fields.length target ∨
      ∃ p, c.Holds target p ∧ o = .ofPart (p.under d.fields.length 0 f.offset) := by
  constructor
  · intro h
    rcases h with ⟨f', target', last', named', ho⟩
    obtain rfl := Option.some.inj (last.symm.trans last')
    obtain rfl := Except.ok.inj (named.symm.trans named')
    exact ho
  · intro h
    exact ⟨f, target, last, named, h⟩

theorem InFlexible.path_eq (h : c.InFlexible d o) :
    ∃ rest, o.path = (d.fields.length, 0) :: rest := by
  rcases h with ⟨f, target, _, _, rfl | ⟨p, _, rfl⟩⟩
  · exact ⟨[], rfl⟩
  · exact ⟨p.path, rfl⟩

theorem Places.before_flexible {p : Part} (hp : c.Places d p) (ho : c.InFlexible d o) :
    Before p.path o.path := by
  obtain ⟨i, f, hfield, target, k, _, _, hin⟩ := places_iff.mp hp
  obtain ⟨_, hpath⟩ := hin.path_eq
  obtain ⟨_, hlast⟩ := ho.path_eq
  obtain ⟨hi, _⟩ := List.getElem?_eq_some_iff.mp hfield
  rw [hpath, hlast]
  exact .inl hi

theorem pairwise_flexible (f : Field) (i : Nat) {target : Target} {parts : List Part}
    (hparts : ∀ p ∈ parts, c.Holds target p)
    (ordered : parts.Pairwise fun p q => Before p.path q.path) :
    (Occurrence.flexible f i target :: parts.map fun p => .ofPart (p.under i 0 f.offset)).Pairwise
      fun a b => Before a.path b.path := by
  refine List.pairwise_cons.mpr ⟨fun o ho => ?_, List.pairwise_map.mpr ?_⟩
  · obtain ⟨p, hp, rfl⟩ := List.mem_map.mp ho
    obtain ⟨_, _, hplaces⟩ := hparts p hp
    exact .inr ⟨rfl, .inr ⟨rfl, before_of_ne_nil hplaces.path_ne_nil⟩⟩
  · exact ordered.imp fun hbefore => .inr ⟨rfl, .inr ⟨rfl, hbefore⟩⟩

theorem pairwise_whole {parts : List Part} {last : List Occurrence}
    (hparts : ∀ p ∈ parts, c.Places d p)
    (ordered : parts.Pairwise fun p q => Before p.path q.path)
    (hlast : ∀ o ∈ last, c.InFlexible d o)
    (orderedLast : last.Pairwise fun a b => Before a.path b.path) :
    (.whole t :: (parts.map .ofPart ++ last)).Pairwise fun a b : Occurrence =>
      Before a.path b.path := by
  refine List.pairwise_cons.mpr ⟨fun o ho => ?_, List.pairwise_append.mpr
    ⟨List.pairwise_map.mpr ordered, orderedLast, fun a ha b hb => ?_⟩⟩
  · rcases List.mem_append.mp ho with hpart | hin
    · obtain ⟨p, hp, rfl⟩ := List.mem_map.mp hpart
      exact before_of_ne_nil (hparts p hp).path_ne_nil
    · obtain ⟨_, hpath⟩ := (hlast o hin).path_eq
      exact before_of_ne_nil (by simp [hpath])
  · obtain ⟨p, hp, rfl⟩ := List.mem_map.mp ha
    exact (hparts p hp).before_flexible (hlast b hb)

theorem appends_flexible {out out' : Array Entry} {flexible : Option (Nat × Nat)} {f : Field}
    (hlast : d.flexible = some f) (h : c.layFlexible d out = .ok (flexible, out')) :
    ∃ target parts, c.resolve d.name f.typeName = .ok target ∧
      flexible = some (f.offset, target.size) ∧
      Appends f.offset (out ++ (Occurrence.flexible f d.fields.length target).entries) out'
        (c.Holds target) parts := by
  simp only [layFlexible, hlast] at h
  obtain ⟨target, named, h⟩ := ok_of_bind h
  cases hdeclaration : target.declaration with
  | none =>
      simp only [hdeclaration] at h
      obtain ⟨_, hout, h⟩ := ok_of_bind h
      obtain ⟨hflexible, rfl⟩ := Prod.mk.inj (Except.ok.inj h)
      obtain rfl := Except.ok.inj hout
      refine ⟨target, [], named, hflexible.symm, .nil _ _ fun p hp => ?_⟩
      obtain ⟨_, hsome, _⟩ := hp
      exact Option.some_ne_none _ (hsome.symm.trans hdeclaration)
  | some child =>
      simp only [hdeclaration] at h
      obtain ⟨_, hout, h⟩ := ok_of_bind h
      obtain ⟨hflexible, rfl⟩ := Prod.mk.inj (Except.ok.inj h)
      obtain ⟨parts, hparts⟩ := appends_layFields hout
      refine ⟨target, parts, named, hflexible.symm,
        hparts.congr fun p => ⟨fun hp => ⟨child, hdeclaration, hp⟩, ?_⟩⟩
      intro hp
      obtain ⟨child', hchild', hp⟩ := hp
      exact Option.some.inj (hdeclaration.symm.trans hchild') ▸ hp

theorem layFlexible_eq_ok {out out' : Array Entry} {flexible : Option (Nat × Nat)}
    (h : c.layFlexible d out = .ok (flexible, out')) :
    ∃ os : List Occurrence, out'.toList = out.toList ++ os.flatMap Occurrence.entries ∧
      (∀ o, o ∈ os ↔ c.InFlexible d o) ∧ os.Pairwise fun a b => Before a.path b.path := by
  cases hlast : d.flexible with
  | none =>
      simp only [layFlexible, hlast] at h
      obtain ⟨_, rfl⟩ := Prod.mk.inj (Except.ok.inj h)
      refine ⟨[], by simp, fun o => ⟨fun ho => absurd ho List.not_mem_nil, ?_⟩, .nil⟩
      intro ho
      rcases ho with ⟨f, _, hf, _⟩
      exact absurd (hf.symm.trans hlast) (Option.some_ne_none f)
  | some f =>
      obtain ⟨target, parts, named, _, hparts⟩ := appends_flexible hlast h
      refine ⟨_, ?_, fun o => ?_, pairwise_flexible f d.fields.length
        (fun p => (hparts.mem_iff p).mp) hparts.ordered⟩
      · simp only [hparts.toList_eq, List.flatMap_cons, List.flatMap_map,
          Occurrence.entries_ofPart_under, Array.toList_appendList, List.append_assoc]
      · rw [inFlexible_iff hlast named]
        simp only [List.mem_cons, List.mem_map, hparts.mem_iff, eq_comm (b := o)]

/-! ## What tables hold -/

variable {registry : Registry} {record : TypeRecord}

/-- A declaration that can be laid out yields the entries of all that its type contains. -/
theorem lists_of_lay {coercion : Option TypeHash} {out out' : Array Entry}
    {flexible : Option (Nat × Nat)} (hout : c.layFields d.name (mostDepth + 1) d 0
      (TypeRecord.selfEntries (d.typeHash c.hasher) coercion).toArray = .ok out)
    (hlast : c.layFlexible d out = .ok (flexible, out')) :
    ∃ os, c.Lists ⟨d.typeHash c.hasher, d.size, coercion, some d⟩ os ∧
      out'.toList = os.flatMap Occurrence.entries := by
  let t : Target := ⟨d.typeHash c.hasher, d.size, coercion, some d⟩
  obtain ⟨parts, hparts⟩ := appends_layFields hout
  obtain ⟨last, hlast, hmem, hordered⟩ := layFlexible_eq_ok hlast
  have hheld (p : Part) : p ∈ parts ↔ c.Holds t p := by
    rw [hparts.mem_iff]
    exact ⟨fun hp => ⟨d, rfl, hp⟩, fun ⟨_, heq, hp⟩ => Option.some.inj heq ▸ hp⟩
  refine ⟨.whole t :: (parts.map .ofPart ++ last), ⟨fun o => ?_, ?_⟩, ?_⟩
  · rw [contains_iff, List.mem_cons, List.mem_append, List.mem_map, hmem]
    simp only [hheld, eq_comm (b := o), t, Option.some.injEq, exists_eq_left']
  · exact pairwise_whole (fun p => (hparts.mem_iff p).mp) hparts.ordered (fun o => (hmem o).mp)
      hordered
  · rw [hlast, hparts.toList_eq, List.flatMap_cons, List.flatMap_append, List.flatMap_map]
    simp only [Occurrence.entries_ofPart, List.append_assoc]
    rfl

theorem lists_builtin (b : Builtin) :
    c.Lists ⟨b.hash c.hasher, b.size, b.coercion, none⟩
      [.whole ⟨b.hash c.hasher, b.size, b.coercion, none⟩] := by
  refine ⟨fun o => ?_, List.pairwise_singleton _ _⟩
  rw [contains_iff, List.mem_singleton]
  refine ⟨.inl, fun h => ?_⟩
  rcases h with heq | ⟨_, ⟨_, hd, _⟩, _⟩ | ⟨_, hd, _⟩
  · exact heq
  · cases hd
  · cases hd

/-- The table of the record holds the entries of `os`, the first for each offset and type. -/
structure Tabulates (record : TypeRecord) (os : List Occurrence) : Prop where
  indexes : record.Indexes (os.flatMap Occurrence.entries)
  distinct : (record.table.entries.map fun e => (e.offset, e.hash)).Nodup

theorem Lists.entries_real {shapes : Shapes} {records : List TypeRecord} (hos : c.Lists t os)
    (h : c.Built shapes records registry) (known : c.Knows t) :
    ∀ e ∈ os.flatMap Occurrence.entries, e.hash ≠ .nil := by
  intro e he
  obtain ⟨o, ho, hentry⟩ := List.mem_flatMap.mp he
  obtain ⟨hash, hhash, rfl⟩ := List.mem_map.mp hentry
  exact h.hashes_ne_nil (((hos.mem_iff o).mp ho).knows known) hash hhash

theorem tabulates_builtin {shapes : Shapes} {records : List TypeRecord}
    (h : c.Built shapes records registry) {b : Builtin} (listed : b ∈ Builtin.all) :
    Tabulates (b.record c.hasher) [.whole ⟨b.hash c.hasher, b.size, b.coercion, none⟩] := by
  have hne := (lists_builtin (c := c) b).entries_real h (.builtin listed)
  have hbuild := Builtin.build?_eq c.hasher listed
  have hd := Builtin.distinct_selfEntries c.hasher listed
  rw [List.flatMap_singleton] at hne
  constructor
  · rw [List.flatMap_singleton]
    exact TypeRecord.indexes_of_build? hbuild hne hd
  · exact Layout.Table.nodup_keys_build? hbuild hne hd

/-- The record of a declaration tabulates what its type contains: repeated entries are left out of
the table, but they come behind the first. -/
theorem tabulates_declared {shapes : Shapes} {records : List TypeRecord}
    (h : c.Built shapes records registry) (listed : d ∈ c.declarations) {coercion : Option TypeHash}
    (coerced : c.coercionOf d = .ok coercion) (hrecord : c.recordOf shapes d = .ok record) :
    ∃ os, c.Lists ⟨d.typeHash c.hasher, d.size, coercion, some d⟩ os ∧ Tabulates record os := by
  obtain ⟨coercion', out, flexible, out', table, shape, hcoercion, hout, hlast, htable, _, rfl⟩ :=
    recordOf_eq_ok hrecord
  obtain rfl := Except.ok.inj (coerced.symm.trans hcoercion)
  obtain ⟨os, hos, hentries⟩ := lists_of_lay hout hlast
  have hne := hos.entries_real h (.declared listed coerced)
  obtain ⟨hdistinct, hkept, hfind⟩ := find?_firstOfEach out'
  rw [hentries] at hkept hfind
  have hfirst : ∀ e ∈ firstOfEach out', e.hash ≠ .nil := fun e he => hne e (hkept e he)
  refine ⟨os, hos, ?_, ?_⟩
  · exact .congr (TypeRecord.indexes_of_build? htable hfirst hdistinct) hfind
  · exact Layout.Table.nodup_keys_build? htable hfirst hdistinct

/-- Each type that is known has a record, which tabulates all that the type contains. -/
theorem tabulates_of_knows (built : c.build = .ok registry) (known : c.Knows t) :
    ∃ record os, registry.find? t.hash = some record ∧ c.Lists t os ∧ Tabulates record os := by
  obtain ⟨shapes, records, h⟩ := build_eq_ok built
  cases known with
  | @builtin b listed =>
      exact ⟨b.record c.hasher, _, h.find?_hash (h.builtin_mem listed), lists_builtin b,
        tabulates_builtin h listed⟩
  | @declared d coercion listed coerced =>
      obtain ⟨record, hmem, hrecord⟩ := h.recordOf_mem listed
      obtain ⟨os, hos, htabulates⟩ := tabulates_declared h listed coerced hrecord
      have hhash : record.hash = d.typeHash c.hasher := by
        obtain ⟨_, _, hdescribes⟩ := h.describes listed hrecord
        exact hdescribes.hash_eq
      exact ⟨record, os, hhash ▸ h.find?_hash hmem, hos, htabulates⟩

theorem Tabulates.hit_iff (h : Tabulates record os) (hos : c.Lists t os) (hash : TypeHash)
    (offset : Nat) :
    (∃ place e, record.lookup hash offset = .hit place e) ↔ ∃ o, c.Occurs t hash offset o := by
  have hlookup := h.indexes.lookup_eq hash offset
  rcases hos.search hash offset with ⟨o, ho, hsearch⟩ | ⟨hnone, hsearch⟩
  · obtain ⟨place, hplace⟩ := Layout.Lookup.found?_eq_some_iff.mp (hlookup.trans hsearch)
    exact ⟨fun _ => ⟨o, ho.occurs⟩, fun _ => ⟨place, _, hplace⟩⟩
  · refine ⟨fun hhit => ?_, fun hoccurs => ?_⟩
    · obtain ⟨place, e, hhit⟩ := hhit
      have hfound : (record.lookup hash offset).found? = some e := by rw [hhit]; rfl
      exact nomatch hfound.symm.trans (hlookup.trans hsearch)
    · obtain ⟨o, ho⟩ := hoccurs
      exact absurd ho (hnone o)

theorem Tabulates.foremost_of_mem (h : Tabulates record os) (hos : c.Lists t os) {e : Entry}
    (he : e ∈ record.table.entries) :
    ∃ o, c.Foremost t e.hash e.offset o ∧ e = o.entry e.hash := by
  obtain ⟨place, hplace⟩ := Layout.Table.mem_entries_iff.mp he
  exact hos.foremost_of_find? (h.indexes.entry_eq hplace)

theorem tabulates_of_mem (built : c.build = .ok registry) (hr : record ∈ registry.records) :
    ∃ t os, c.Knows t ∧ c.Lists t os ∧ Tabulates record os := by
  obtain ⟨shapes, records, h⟩ := build_eq_ok built
  obtain ⟨t, known, hdescribes⟩ := h.known_of_mem hr
  obtain ⟨found, os, hfind, hos, htabulates⟩ := tabulates_of_knows built known
  rw [← hdescribes.hash_eq, h.find?_hash hr, Option.some.injEq] at hfind
  exact ⟨t, os, known, hos, hfind ▸ htabulates⟩

theorem indexes_of_mem (built : c.build = .ok registry) (hr : record ∈ registry.records) :
    ∃ es, record.Indexes es := by
  obtain ⟨_, os, _, _, htabulates⟩ := tabulates_of_mem built hr
  exact ⟨_, htabulates.indexes⟩

/-- The layout of a type is exact: a lookup hits iff an object that the hash stands for is contained
at the offset, and answers the first such object in pre-order. The table has no other entry and none
twice. -/
theorem lookup_finds_foremost (built : c.build = .ok registry) (known : c.Knows t) :
    ∃ record, registry.find? t.hash = some record ∧
      (∀ hash offset, (∃ place e, record.lookup hash offset = .hit place e) ↔
        ∃ o, c.Occurs t hash offset o) ∧
      (∀ hash offset place e, record.lookup hash offset = .hit place e →
        ∃ o, c.Foremost t hash offset o ∧ e = o.entry hash) ∧
      (∀ e ∈ record.table.entries, ∃ o, c.Foremost t e.hash e.offset o ∧ e = o.entry e.hash) ∧
      (record.table.entries.map fun e => (e.offset, e.hash)).Nodup := by
  obtain ⟨record, os, hfind, hos, hindexes, hdistinct⟩ := tabulates_of_knows built known
  have hhit (hash : TypeHash) (offset place : Nat) (e : Entry)
      (hlookup : record.lookup hash offset = .hit place e) :
      (os.flatMap Occurrence.entries).find? (·.isFor hash offset) = some e := by
    rw [← hindexes.lookup_eq, hlookup]
    rfl
  have hfirst (hash : TypeHash) (offset : Nat) (e : Entry)
      (hfound : (os.flatMap Occurrence.entries).find? (·.isFor hash offset) = some e) :
      ∃ o, c.Foremost t hash offset o ∧ e = o.entry hash := by
    rcases hos.search hash offset with ⟨o, ho, hsearch⟩ | ⟨_, hsearch⟩
    · exact ⟨o, ho, Option.some.inj (hfound.symm.trans hsearch)⟩
    · exact nomatch hfound.symm.trans hsearch
  refine ⟨record, hfind, Tabulates.hit_iff ⟨hindexes, hdistinct⟩ hos,
    fun hash offset place e hlookup => ?_, fun e he => ?_, hdistinct⟩
  · exact hfirst hash offset e (hhit hash offset place e hlookup)
  · obtain ⟨place, hplace⟩ := Layout.Table.mem_entries_iff.mp he
    exact hfirst e.hash e.offset e (hindexes.entry_eq hplace)

def item : Declaration :=
  ((Declaration.ofSize "struct item" 8).withField "id" "int32_t" 0).withField "weight" "float" 4

def batch : Declaration :=
  ((Declaration.ofSize "struct batch" 8).withField "count" "int64_t" 0).withFlexible
    "items" "struct item" 8

def batchType : Target := ⟨batch.typeHash NameHasher.spread, 8, none, some batch⟩

def batched : Catalog := ⟨NameHasher.spread, [item, batch]⟩

def batchedRegistry : Registry := batched.build.toOption.get (by decide +kernel)

theorem batched_build : batched.build = .ok batchedRegistry := ok_get (by decide +kernel)

theorem batched_knows : batched.Knows batchType :=
  .declared (List.mem_cons_of_mem _ List.mem_cons_self) rfl

theorem batched_occurs : ∃ o, batched.Occurs batchType (.ofName NameHasher.spread "float") 12 o := by
  have hitem : batched.resolve batch.name "struct item" =
      .ok ⟨item.typeHash NameHasher.spread, 8, none, some item⟩ := rfl
  have hfloat : batched.resolve item.name "float" =
      .ok ⟨.ofName NameHasher.spread "float", 4, none, none⟩ := rfl
  have hweight : batched.Places item _ := .element (i := 1) (k := 0) rfl hfloat (by decide)
  exact ⟨_, .within rfl rfl hitem ⟨item, rfl, hweight⟩, List.mem_cons_self, rfl⟩

theorem batched_finds_foremost : batched.build = .ok batchedRegistry ∧ batched.Knows batchType ∧
    ∃ record, batchedRegistry.find? batchType.hash = some record ∧
      ∃ place o, batched.Foremost batchType (.ofName NameHasher.spread "float") 12 o ∧
        record.lookup (.ofName NameHasher.spread "float") 12 =
          .hit place (o.entry (.ofName NameHasher.spread "float")) := by
  obtain ⟨record, hfind, hhits, hforemost, _⟩ := lookup_finds_foremost batched_build batched_knows
  obtain ⟨place, e, hlookup⟩ := (hhits _ _).mpr batched_occurs
  obtain ⟨o, ho, rfl⟩ := hforemost _ _ place e hlookup
  exact ⟨batched_build, batched_knows, record, hfind, place, o, ho, hlookup⟩

/-! ## What a check looks for -/

/-- A check for `expected` finds `o` under `hash`: the first object of the type expected, or of the
type that it is coerced to if there is none of its own. -/
structure Picks (c : Catalog) (t : Target) (expected : TypeHash) (offset : Nat) (hash : TypeHash)
    (o : Occurrence) : Prop where
  foremost : c.Foremost t hash offset o
  hash_eq : hash = expected ∨
    c.Coerces expected hash ∧ ∀ other, ¬ c.Occurs t expected offset other

/-- An object of the type `expected`, or of the type that it is coerced to, lies at the offset. -/
def Admits (c : Catalog) (t : Target) (expected : TypeHash) (offset : Nat) : Prop :=
  ∃ hash o, (hash = expected ∨ c.Coerces expected hash) ∧ c.Occurs t hash offset o

variable {expected : TypeHash}

theorem Picks.admits (h : c.Picks t expected offset hash o) : c.Admits t expected offset :=
  ⟨hash, o, h.hash_eq.imp_right And.left, h.foremost.occurs⟩

theorem Picks.unique (built : c.build = .ok registry) {hash' : TypeHash} {other : Occurrence}
    (h : c.Picks t expected offset hash o) (h' : c.Picks t expected offset hash' other) :
    other = o := by
  rcases h.hash_eq with rfl | ⟨hcoerces, hnone⟩
  · rcases h'.hash_eq with rfl | ⟨_, hnone'⟩
    · exact h.foremost.unique h'.foremost
    · exact absurd h.foremost.occurs (hnone' o)
  · rcases h'.hash_eq with rfl | ⟨hcoerces', _⟩
    · exact absurd h'.foremost.occurs (hnone other)
    · have hsome := (coerces_iff built).mp hcoerces
      obtain rfl := Option.some.inj (hsome.symm.trans ((coerces_iff built).mp hcoerces'))
      exact h.foremost.unique h'.foremost

/-- The entry that decides a check is that of the object picked, if there is one. -/
theorem Tabulates.entryFor?_cases (h : Tabulates record os) (hos : c.Lists t os)
    (built : c.build = .ok registry) (cache : Cache.Chain) (expected : TypeHash) (offset : Nat) :
    (∃ hash o, c.Picks t expected offset hash o ∧
      registry.entryFor? record cache expected offset = some (o.entry hash)) ∨
    (¬ c.Admits t expected offset ∧ registry.entryFor? record cache expected offset = none) := by
  rw [h.indexes.entryFor?]
  rcases hos.search expected offset with ⟨o, hfirst, hfind⟩ | ⟨hnone, hfind⟩
  · exact .inl ⟨expected, o, ⟨hfirst, .inl rfl⟩, by rw [hfind, Option.some_or]⟩
  · rw [hfind, Option.none_or]
    cases hcoercion : (registry.find? expected).bind (·.coercion) with
    | none =>
        refine .inr ⟨?_, rfl⟩
        intro h
        rcases h with ⟨hash, o, rfl | hcoerces, hoccurs⟩
        · exact hnone o hoccurs
        · exact nomatch hcoercion.symm.trans ((coerces_iff built).mp hcoerces)
    | some coerced =>
        rw [Option.bind_some]
        rcases hos.search coerced offset with ⟨o, hfirst, hfind⟩ | ⟨hnone', hfind⟩
        · exact .inl ⟨coerced, o, ⟨hfirst, .inr ⟨(coerces_iff built).mpr hcoercion, hnone⟩⟩, hfind⟩
        · refine .inr ⟨?_, hfind⟩
          intro h
          rcases h with ⟨hash, o, rfl | hcoerces, hoccurs⟩
          · exact hnone o hoccurs
          · have hsome := (coerces_iff built).mp hcoerces
            obtain rfl := Option.some.inj (hcoercion.symm.trans hsome)
            exact hnone' o hoccurs

theorem Tabulates.picks_of_entryFor? (h : Tabulates record os) (hos : c.Lists t os)
    (built : c.build = .ok registry) {cache : Cache.Chain} {e : Entry}
    (he : registry.entryFor? record cache expected offset = some e) :
    ∃ hash o, c.Picks t expected offset hash o ∧ e = o.entry hash := by
  rcases h.entryFor?_cases hos built cache expected offset with
    ⟨hash, o, hpicks, hentry⟩ | ⟨_, hnone⟩
  · exact ⟨hash, o, hpicks, Option.some.inj (he.symm.trans hentry)⟩
  · exact nomatch he.symm.trans hnone

theorem Tabulates.entryFor?_isSome_iff (h : Tabulates record os) (hos : c.Lists t os)
    (built : c.build = .ok registry) (cache : Cache.Chain) :
    (registry.entryFor? record cache expected offset).isSome = true ↔
      c.Admits t expected offset := by
  rcases h.entryFor?_cases hos built cache expected offset with
    ⟨_, _, hpicks, hentry⟩ | ⟨hnot, hentry⟩
  · rw [hentry]
    exact ⟨fun _ => hpicks.admits, fun _ => rfl⟩
  · rw [hentry]
    exact ⟨nofun, fun hadmits => absurd hadmits hnot⟩

/-! ## Where records repeat -/

def Target.Rigid (t : Target) : Prop := ∀ d, t.declaration = some d → d.flexible = none

/-- The record of such a type repeats at the size of the type, -/
theorem record_of_rigid (built : c.build = .ok registry) (known : c.Knows t) (rigid : t.Rigid) :
    ∃ record os, registry.find? t.hash = some record ∧ c.Lists t os ∧ Tabulates record os ∧
      record.elementStart = 0 ∧ record.elementSize = t.size ∧ record.size = t.size := by
  obtain ⟨record, os, hfind, hos, htabulates⟩ := tabulates_of_knows built known
  obtain ⟨shapes, records, h⟩ := build_eq_ok built
  refine ⟨record, os, hfind, hos, htabulates, ?_⟩
  cases known with
  | @builtin b listed =>
      obtain rfl := Option.some.inj (hfind.symm.trans (h.find?_hash (h.builtin_mem listed)))
      exact ⟨rfl, rfl, rfl⟩
  | @declared d coercion listed coerced =>
      have hrecord := h.recordOf_of_find? listed hfind
      obtain ⟨_, _, hdescribes⟩ := h.describes listed hrecord
      obtain ⟨_, _, _, _, _, _, _, _, hlast, _, _, rfl⟩ := recordOf_eq_ok hrecord
      rw [layFlexible, rigid d rfl] at hlast
      obtain ⟨rfl, _⟩ := Prod.mk.inj (Except.ok.inj hlast)
      exact ⟨rfl, hdescribes.size_eq, hdescribes.size_eq⟩

/-- and that of one with a flexible array at the size of the elements, from the array on. -/
theorem record_of_flexible {f : Field} {target : Target} (built : c.build = .ok registry)
    (known : c.Knows t) (declared : t.declaration = some d) (last : d.flexible = some f)
    (named : c.resolve d.name f.typeName = .ok target) :
    ∃ record os, registry.find? t.hash = some record ∧ c.Lists t os ∧ Tabulates record os ∧
      record.elementStart = f.offset ∧ record.elementSize = target.size ∧
      record.size = t.size := by
  obtain ⟨record, os, hfind, hos, htabulates⟩ := tabulates_of_knows built known
  obtain ⟨shapes, records, h⟩ := build_eq_ok built
  refine ⟨record, os, hfind, hos, htabulates, ?_⟩
  cases known with
  | builtin => cases declared
  | @declared d' coercion listed coerced =>
      obtain rfl := Option.some.inj declared
      have hrecord := h.recordOf_of_find? listed hfind
      obtain ⟨_, _, hdescribes⟩ := h.describes listed hrecord
      obtain ⟨_, _, _, _, _, _, _, _, hlast, _, _, rfl⟩ := recordOf_eq_ok hrecord
      obtain ⟨target', _, named', rfl, _⟩ := appends_flexible last hlast
      obtain rfl := Except.ok.inj (named.symm.trans named')
      exact ⟨rfl, rfl, hdescribes.size_eq⟩

end Catalog

end TypedHeap
