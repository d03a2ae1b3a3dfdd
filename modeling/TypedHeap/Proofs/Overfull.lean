import TypedHeap.Proofs.Exhaustion
import TypedHeap.Proofs.Fitting
import TypedHeap.Proofs.Nesting

/-! # Layouts that are too large

Two limits bound the layout of a type. One is on the different entries, which must fit a table of the
largest size and be few enough. The other is on all entries laid out so far, repeated ones included. It
stops the descent into a type, and meets types that the first limit would let pass.
-/

namespace TypedHeap

open Layout (Entry probeLimit)
open Relation (TransGen)

namespace Catalog

variable {c : Catalog} {d : Declaration} {t : Target} {name : String} {base : Nat}
  {out out' : Array Entry} {P Q : Part → Prop} {parts ps qs : List Part}

/-- The type has more different entries than a layout may have. -/
def ManyPairs (c : Catalog) (t : Target) : Prop :=
  ∃ pairs : List (Nat × TypeHash), pairs.Nodup ∧ mostEntries < pairs.length ∧
    ∀ p ∈ pairs, ∃ o, c.Occurs t p.2 p.1 o

/-- The different entries of the type, placed in their order, do not fit a table of the largest size. -/
def Unplaceable (c : Catalog) (seed : TypeHash) (t : Target) : Prop :=
  ∃ os, c.Lists t os ∧ Layout.Table.fill? seed
    (firstOfEach (os.flatMap Occurrence.entries).toArray) Layout.mostBits = none

/-- Some objects that the type contains, each of them taken once, have more entries than may be laid out
for a type, repeated ones included. -/
def Crowded (c : Catalog) (t : Target) : Prop :=
  ∃ os : List Occurrence, (∀ o ∈ os, c.Contains t o) ∧
    (os.Pairwise fun a b => Before a.path b.path) ∧
    2 * mostEntries < (os.flatMap Occurrence.entries).length

/-! ## Where laying out stops -/

/-- `parts` are some of those with the property `P`, in pre-order, and with their entries behind it
`out` is too large. -/
structure Exceeds (base : Nat) (out : Array Entry) (P : Part → Prop) (parts : List Part) : Prop where
  among : ∀ p ∈ parts, P p
  ordered : parts.Pairwise fun p q => Before p.path q.path
  limit_lt : 2 * mostEntries < out.size + (parts.flatMap (Part.entries base)).length

theorem Exceeds.mono (h : Exceeds base out P parts) (hPQ : ∀ p, P p → Q p) :
    Exceeds base out Q parts :=
  ⟨fun p hp => hPQ p (h.among p hp), h.ordered, h.limit_lt⟩

theorem Exceeds.under {shift : Nat} (h : Exceeds (base + shift) out P parts) (i k : Nat) :
    Exceeds base out (fun p => ∃ q, P q ∧ p = q.under i k shift)
      (parts.map fun q => q.under i k shift) := by
  refine ⟨fun p hp => ?_, ?_, ?_⟩
  · obtain ⟨q, hq, rfl⟩ := List.mem_map.mp hp
    exact ⟨q, h.among q hq, rfl⟩
  · exact List.pairwise_map.mpr (h.ordered.imp fun hb => .inr ⟨rfl, .inr ⟨rfl, hb⟩⟩)
  · simpa only [List.flatMap_map, Part.entries_under] using h.limit_lt

theorem Exceeds.one {p : Part} (h : 2 * mostEntries < (out ++ p.entries base).size) :
    Exceeds base out (· = p) [p] := by
  refine ⟨fun q => List.mem_singleton.mp, List.pairwise_singleton _ p, ?_⟩
  rwa [List.flatMap_singleton, ← Array.length_toList, ← List.length_append, ← Array.toList_appendList,
    Array.length_toList]

theorem Appends.size_eq (h : Appends base out out' P parts) :
    out'.size = out.size + (parts.flatMap (Part.entries base)).length := by
  rw [← Array.length_toList, h.toList_eq, List.length_append, Array.length_toList]

theorem Appends.exceeds (hp : Appends base out out' P ps) (hq : Exceeds base out' Q qs)
    (hbefore : ∀ p q, P p → Q q → Before p.path q.path) :
    Exceeds base out (fun p => P p ∨ Q p) (ps ++ qs) := by
  have hsize := hp.size_eq
  refine ⟨fun p h => ?_, ?_, ?_⟩
  · rcases List.mem_append.mp h with hpm | hqm
    · exact .inl ((hp.mem_iff p).mp hpm)
    · exact .inr (hq.among p hqm)
  · refine List.pairwise_append.mpr ⟨hp.ordered, hq.ordered, fun p hpm q hqm => ?_⟩
    exact hbefore p q ((hp.mem_iff p).mp hpm) (hq.among q hqm)
  · rw [List.flatMap_append, List.length_append, ← Nat.add_assoc, ← hsize]
    exact hq.limit_lt

def Stops (c : Catalog) (name : String) (base : Nat) (f : Field) (i : Nat) (target : Target)
    (inside : Nat → Array Entry → Except RegistryError (Array Entry)) : Prop :=
  ∀ k out, inside k out = .error (.layoutTooLarge name) → ∃ parts, Exceeds base out
    (fun p => ∃ q, c.Holds target q ∧ p = q.under i k (f.offset + k * target.size)) parts

/-- The elements of a field stop at one whose own entries are too many, or those of what lies in it. -/
theorem exceeds_layElements {f : Field} {i : Nat} {target : Target} {top : String}
    {inside : Nat → Array Entry → Except RegistryError (Array Entry)}
    (hinside : c.Inside base f i target inside)
    (hstops : c.Stops name base f i target inside)
    {count k : Nat} (h : layElements top (fun k => (f.part i k target).entries base) inside count k
      out = .error (.layoutTooLarge name)) :
    ∃ parts, Exceeds base out
      (fun p => ∃ l, k ≤ l ∧ l < k + count ∧ c.InElement f i target l p) parts := by
  induction count generalizing k out with
  | zero => cases h
  | succ count ih =>
      simp only [layElements] at h
      have hown := Appends.one base out (f.part i k target)
      have hfirst (p : Part) (hp : c.InElement f i target k p) :
          ∃ l, k ≤ l ∧ l < k + (count + 1) ∧ c.InElement f i target l p :=
        ⟨k, Nat.le_refl k, by omega, hp⟩
      have hnested (p q : Part) (hp : p = f.part i k target)
          (hq : ∃ x, c.Holds target x ∧ q = x.under i k (f.offset + k * target.size)) :
          Before p.path q.path := by
        obtain ⟨x, hx, rfl⟩ := hq
        exact hp ▸ hx.after_part f i k _
      -- too many entries of the element itself, of what lies in it, or of the later elements
      split at h
      · next hlimit =>
        exact ⟨_, (Exceeds.one hlimit).mono fun p hp => hfirst p (.inl hp)⟩
      · rcases error_of_bind h with hinner | ⟨between, hinner, hrest⟩
        · obtain ⟨inner, hexceeds⟩ := hstops k _ hinner
          exact ⟨_, (hown.exceeds hexceeds hnested).mono hfirst⟩
        · obtain ⟨inner, happends⟩ := hinside k _ between hinner
          obtain ⟨later, hlater⟩ := ih hrest
          refine ⟨_, ((hown.append happends hnested).exceeds hlater ?_).mono fun p hp => ?_⟩
          · intro p q hp hq
            obtain ⟨l, hkl, _, hq⟩ := hq
            exact InElement.before hp hq (.inr ⟨rfl, hkl⟩)
          · rcases hp with hp | ⟨l, hkl, hl, hp⟩
            · exact hfirst p hp
            · exact ⟨l, by omega, by omega, hp⟩

theorem exceeds_fields {owner : String}
    {lay : Array Entry → Field → Except RegistryError (Array Entry)}
    (hlay : ∀ f i out out', lay out f = .ok out' →
      ∃ parts, Appends base out out' (c.InField owner f i) parts)
    (hstops : ∀ f i out, lay out f = .error (.layoutTooLarge name) →
      ∃ parts, Exceeds base out (c.InField owner f i) parts)
    {fields : List Field} (i : Nat) (h : fields.foldlM lay out = .error (.layoutTooLarge name)) :
    ∃ parts, Exceeds base out
      (fun p => ∃ j f, fields[j]? = some f ∧ c.InField owner f (i + j) p) parts := by
  induction fields generalizing i out with
  | nil => cases h
  | cons f fields ih =>
      rw [List.foldlM_cons] at h
      rcases error_of_bind h with hfirst | ⟨between, hfirst, hrest⟩
      · obtain ⟨parts, hexceeds⟩ := hstops f i out hfirst
        exact ⟨parts, hexceeds.mono fun p hp => ⟨0, f, rfl, hp⟩⟩
      · obtain ⟨first, happends⟩ := hlay f i out between hfirst
        obtain ⟨later, hlater⟩ := ih (i + 1) hrest
        refine ⟨_, (happends.exceeds hlater ?_).mono fun p hp => ?_⟩
        · intro p q hp hq
          obtain ⟨_, _, _, _, hp⟩ := hp
          obtain ⟨j, _, _, _, _, _, _, hq⟩ := hq
          exact hp.before hq (.inl (by omega))
        · rcases hp with hp | ⟨j, g, hg, hp⟩
          · exact ⟨0, f, rfl, hp⟩
          · refine ⟨j + 1, g, hg, ?_⟩
            rwa [← Nat.add_assoc, Nat.add_right_comm]

theorem stops_child {lay : Declaration → Nat → Array Entry → Except RegistryError (Array Entry)}
    (hlay : ∀ child shift out, lay child shift out = .error (.layoutTooLarge name) →
      ∃ parts, Exceeds shift out (c.Places child) parts) (f : Field) (i : Nat) (target : Target) :
    c.Stops name base f i target fun k out => match target.declaration with
      | none => .ok out
      | some child => lay child (base + (f.offset + k * target.size)) out := by
  intro k out hk
  cases hchild : target.declaration with
  | none =>
      simp only [hchild] at hk
      cases hk
  | some child =>
      simp only [hchild] at hk
      obtain ⟨parts, hparts⟩ := hlay child _ out hk
      refine ⟨_, (hparts.under i k).mono fun p hp => ?_⟩
      obtain ⟨q, hq, rfl⟩ := hp
      exact ⟨q, ⟨child, hchild, hq⟩, rfl⟩

theorem resolve_ne_too_large {owner type : String} :
    c.resolve owner type ≠ .error (.layoutTooLarge name) := by
  intro h
  obtain ⟨_, _, h⟩ := resolve_eq_error h
  cases h

theorem exceeds_layField {top : String} {depth : Nat} {f : Field}
    (hlay : ∀ child shift out, c.layFields top depth child shift out =
      .error (.layoutTooLarge name) → ∃ parts, Exceeds shift out (c.Places child) parts)
    (i : Nat) (h : c.layField top depth d base out f = .error (.layoutTooLarge name)) :
    ∃ parts, Exceeds base out (c.InField d.name f i) parts := by
  rcases error_of_bind h with hresolve | ⟨target, named, h⟩
  · exact absurd hresolve resolve_ne_too_large
  rcases error_of_bind h with hend | ⟨finish, hfinish, h⟩
  · exact absurd hend (elementsEnd?_ne_error nofun)
  · obtain rfl := eq_of_elementsEnd? hfinish
    simp only [Nat.add_assoc] at h
    split at h
    · cases h
    · have hplaced (child : Declaration) (shift : Nat) (out out' : Array Entry)
          (hok : c.layFields top depth child shift out = .ok out') :
          ∃ parts, Appends shift out out' (c.Places child) parts := appends_layFields hok
      obtain ⟨parts, hparts⟩ :=
        exceeds_layElements (inside_child hplaced f i target) (stops_child hlay f i target) h
      refine ⟨parts, hparts.mono fun p hp => ?_⟩
      obtain ⟨k, _, hk, hp⟩ := hp
      exact ⟨target, k, named, by omega, hp⟩

theorem exceeds_layFields {top : String} {depth : Nat}
    (h : c.layFields top depth d base out = .error (.layoutTooLarge name)) :
    ∃ parts, Exceeds base out (c.Places d) parts := by
  induction depth generalizing d base out with
  | zero => cases h
  | succ depth ih =>
      rw [layFields_succ] at h
      obtain ⟨parts, hparts⟩ := exceeds_fields
        (fun f i _ _ => appends_layField (fun _ _ _ _ => appends_layFields) i)
        (fun f i _ => exceeds_layField (fun _ _ _ => ih) i) 0 h
      refine ⟨parts, hparts.mono fun p hp => places_iff.mpr ?_⟩
      simpa only [Nat.zero_add] using hp

/-! ## What is refused as too large -/

/-- The name that is refused is that of the type laid out, not of one that lies in it. -/
theorem eq_top_of_layFields {top : String} {depth : Nat}
    (h : c.layFields top depth d base out = .error (.layoutTooLarge name)) : name = top := by
  induction depth generalizing d base out with
  | zero => cases h
  | succ depth ih =>
      rw [layFields_succ] at h
      obtain ⟨f, _, _, hstep⟩ := step_of_foldlM_error h
      rcases error_of_bind hstep with hresolve | ⟨target, _, hstep⟩
      · exact absurd hresolve resolve_ne_too_large
      rcases error_of_bind hstep with hend | ⟨finish, _, hstep⟩
      · exact absurd hend (elementsEnd?_ne_error nofun)
      · split at hstep
        · cases hstep
        · rcases layElements_eq_error hstep with h | ⟨k, out', hinside⟩
          · exact RegistryError.layoutTooLarge.inj h
          · cases hchild : target.declaration with
            | none =>
                simp only [hchild] at hinside
                cases hinside
            | some child =>
                simp only [hchild] at hinside
                exact ih hinside

theorem layFlexible_eq_too_large (h : c.layFlexible d out = .error (.layoutTooLarge name)) :
    name = d.name ∧ ∃ os : List Occurrence, (∀ o ∈ os, c.InFlexible d o) ∧
      (os.Pairwise fun a b => Before a.path b.path) ∧
      2 * mostEntries < out.size + (os.flatMap Occurrence.entries).length := by
  unfold layFlexible at h
  cases hf : d.flexible with
  | none =>
      simp only [hf] at h
      cases h
  | some f =>
      simp only [hf] at h
      rcases error_of_bind h with hresolve | ⟨target, named, h⟩
      · exact absurd hresolve resolve_ne_too_large
      · cases hchild : target.declaration with
        | none =>
            simp only [hchild] at h
            cases h
        | some child =>
            simp only [hchild] at h
            rcases error_of_bind h with hinside | ⟨_, _, hlast⟩
            · obtain ⟨parts, hparts⟩ := exceeds_layFields hinside
              have hheld (p : Part) (hp : p ∈ parts) : c.Holds target p :=
                ⟨child, hchild, hparts.among p hp⟩
              refine ⟨eq_top_of_layFields hinside, _, fun o ho => (inFlexible_iff hf named).mpr ?_,
                pairwise_flexible f d.fields.length hheld hparts.ordered, ?_⟩
              · rcases List.mem_cons.mp ho with rfl | ho
                · exact .inl rfl
                · obtain ⟨p, hp, rfl⟩ := List.mem_map.mp ho
                  exact .inr ⟨p, hheld p hp, rfl⟩
              · have hlimit := hparts.limit_lt
                simp only [← Array.length_toList, Array.toList_appendList, List.length_append] at hlimit
                simp only [List.flatMap_cons, List.flatMap_map, Occurrence.entries_ofPart_under,
                  List.length_append, ← Array.length_toList, ← Nat.add_assoc]
                exact hlimit
            · cases hlast

theorem crowded_of_lists {coercion : Option TypeHash} {last : List Occurrence}
    (hparts : ∀ p ∈ parts, c.Places d p) (ordered : parts.Pairwise fun p q => Before p.path q.path)
    (hlast : ∀ o ∈ last, c.InFlexible d o)
    (orderedLast : last.Pairwise fun a b => Before a.path b.path)
    (hlimit : 2 * mostEntries < (TypeRecord.selfEntries (d.typeHash c.hasher) coercion).length +
      (parts.flatMap (Part.entries 0)).length + (last.flatMap Occurrence.entries).length) :
    c.Crowded ⟨d.typeHash c.hasher, d.size, coercion, some d⟩ := by
  let t : Target := ⟨d.typeHash c.hasher, d.size, coercion, some d⟩
  refine ⟨.whole t :: (parts.map .ofPart ++ last), fun o ho => contains_iff.mpr ?_,
    pairwise_whole hparts ordered hlast orderedLast, ?_⟩
  · rcases List.mem_cons.mp ho with rfl | ho
    · exact .inl rfl
    · rcases List.mem_append.mp ho with hpart | hin
      · obtain ⟨p, hp, rfl⟩ := List.mem_map.mp hpart
        exact .inr (.inl ⟨p, ⟨d, rfl, hparts p hp⟩, rfl⟩)
      · exact .inr (.inr ⟨d, rfl, hlast o hin⟩)
  · have hself : (Occurrence.whole t).entries =
        TypeRecord.selfEntries (d.typeHash c.hasher) coercion := rfl
    simp only [List.flatMap_cons, List.flatMap_append, List.flatMap_map, Occurrence.entries_ofPart,
      List.length_append, hself, ← Nat.add_assoc]
    exact hlimit

theorem occurs_of_firstOfEach {os : List Occurrence} (hos : c.Lists t os) {entries : Array Entry}
    (hentries : entries.toList = os.flatMap Occurrence.entries) :
    ((firstOfEach entries).map fun e => (e.offset, e.hash)).Nodup ∧
      ∀ p ∈ (firstOfEach entries).map fun e => (e.offset, e.hash), ∃ o, c.Occurs t p.2 p.1 o := by
  obtain ⟨hdistinct, hkept, _⟩ := find?_firstOfEach entries
  refine ⟨Layout.Table.distinct_iff_nodup.mp hdistinct, fun p hp => ?_⟩
  obtain ⟨e, he, rfl⟩ := List.mem_map.mp hp
  obtain ⟨o, ho, hentry⟩ := List.mem_flatMap.mp (hentries ▸ hkept e he)
  obtain ⟨hash, hhash, rfl⟩ := List.mem_map.mp hentry
  exact ⟨o, (hos.mem_iff o).mp ho, hhash, rfl⟩

theorem too_large_of_recordOf {shapes : Shapes}
    (h : c.recordOf shapes d = .error (.layoutTooLarge name)) :
    name = d.name ∧ ∃ coercion, c.coercionOf d = .ok coercion ∧
      (c.ManyPairs ⟨d.typeHash c.hasher, d.size, coercion, some d⟩ ∨
        c.Unplaceable (d.tableHash c.hasher) ⟨d.typeHash c.hasher, d.size, coercion, some d⟩ ∨
        c.Crowded ⟨d.typeHash c.hasher, d.size, coercion, some d⟩) := by
  -- any step can be the one that fails: the fields, the flexible array, the count, the table
  rcases error_of_bind h with hcoercion | ⟨coercion, hcoercion, h⟩
  · obtain ⟨_, h⟩ := coercionOf_eq_error hcoercion
    cases h
  · rcases error_of_bind h with hfields | ⟨out, hout, h⟩
    · obtain ⟨parts, hparts⟩ := exceeds_layFields hfields
      have hnone (o : Occurrence) (ho : o ∈ []) : c.InFlexible d o := nomatch ho
      refine ⟨eq_top_of_layFields hfields, coercion, hcoercion, .inr (.inr ?_)⟩
      exact crowded_of_lists hparts.among hparts.ordered hnone .nil hparts.limit_lt
    · rcases error_of_bind h with hflexible | ⟨⟨flexible, out'⟩, hflexible, h⟩
      · obtain ⟨hname, last, hlast, orderedLast, hlimit⟩ := layFlexible_eq_too_large hflexible
        obtain ⟨parts, hparts⟩ := appends_layFields hout
        refine ⟨hname, coercion, hcoercion, .inr (.inr ?_)⟩
        rw [hparts.size_eq] at hlimit
        exact crowded_of_lists (fun p => (hparts.mem_iff p).mp) hparts.ordered hlast orderedLast hlimit
      · obtain ⟨os, hos, hentries⟩ := lists_of_lay hout hflexible
        obtain ⟨hnodup, hoccurs⟩ := occurs_of_firstOfEach hos hentries
        dsimp only at h
        split at h
        · next hmany =>
          obtain rfl := RegistryError.layoutTooLarge.inj (Except.error.inj h)
          refine ⟨rfl, coercion, hcoercion, .inl ⟨_, hnodup, ?_, hoccurs⟩⟩
          rwa [List.length_map]
        · next hfew =>
          split at h
          · next hbuild =>
            obtain rfl := RegistryError.layoutTooLarge.inj (Except.error.inj h)
            have hroom : 2 * (firstOfEach out').length ≤ 2 ^ Layout.mostBits := by
              have hmost : 2 * mostEntries ≤ 2 ^ Layout.mostBits := by decide
              omega
            refine ⟨rfl, coercion, hcoercion, .inr (.inl ⟨os, hos, ?_⟩)⟩
            rw [← hentries, Array.toArray_toList]
            exact Layout.Table.fill?_of_build?_eq_none hbuild hroom
          · cases h
          · cases h

theorem shapeOf_ne_too_large {depth : Nat} {outer : List String} {owner type : String}
    {shapes : Shapes} : c.shapeOf depth outer owner type shapes ≠ .error (.layoutTooLarge name) := by
  intro h
  induction depth generalizing outer owner type shapes with
  | zero => cases h
  | succ depth ih =>
      cases hnew : shapes[type]? with
      | some shape =>
          rw [shapeOf, hnew] at h
          cases h
      | none =>
          cases hresolve : c.resolve owner type with
          | error e =>
              obtain ⟨_, _, rfl⟩ := resolve_eq_error hresolve
              rw [shapeOf, hnew, hresolve] at h
              cases h
          | ok t =>
              cases hd : t.declaration with
              | none =>
                  rw [shapeOf_of_builtin hnew hresolve hd] at h
                  cases h
              | some d =>
                  obtain ⟨_, rfl⟩ := mem_of_find? ((knows_of_resolve hresolve).2 d hd)
                  rw [shapeOf_declared hnew hresolve hd] at h
                  split at h
                  · cases h
                  · obtain ⟨_, _, _, hfails⟩ := nestedShape_eq_error h
                    exact ih hfails

theorem Registry.insert_ne_too_large {r : Registry} {record : TypeRecord} :
    r.insert record ≠ .error (.layoutTooLarge name) := by
  unfold Registry.insert
  split
  · exact nofun
  · split
    · exact nofun
    · exact nofun

/-- A type is refused as too large only if it has more than `mostEntries` different entries, or these
cannot be placed in the largest table, or more than twice as many entries, repeated ones included, lie
in it. -/
theorem too_large_only_if (h : c.build = .error (.layoutTooLarge name)) :
    ∃ d ∈ c.declarations, d.name = name ∧ ∃ t, c.Knows t ∧ t.declaration = some d ∧
      (c.ManyPairs t ∨ c.Unplaceable (d.tableHash c.hasher) t ∨ c.Crowded t) := by
  rcases error_of_bind h with hshapes | ⟨shapes, _, h⟩
  · obtain ⟨d, _, shapes, hstep⟩ := step_of_foldlM_error hshapes
    rcases error_of_bind hstep with hfails | ⟨_, _, hlast⟩
    · exact absurd hfails shapeOf_ne_too_large
    · cases hlast
  · rcases error_of_bind h with hrecords | ⟨records, _, hinsert⟩
    · obtain ⟨d, listed, hrecord⟩ := error_of_mapM hrecords
      obtain ⟨rfl, coercion, hcoercion, hlarge⟩ := too_large_of_recordOf hrecord
      exact ⟨d, listed, rfl, _, .declared listed hcoercion, rfl, hlarge⟩
    · obtain ⟨_, _, _, hstep⟩ := step_of_foldlM_error hinsert
      exact absurd hstep Registry.insert_ne_too_large

/-! ## Elements without bytes -/

/-- Elements in which nothing lies are refused once they are more than may be laid out. -/
theorem layElements_refused {top : String} {entries : Nat → List Entry}
    {inside : Nat → Array Entry → Except RegistryError (Array Entry)}
    (hentries : ∀ k, 0 < (entries k).length) (hinside : ∀ k out, inside k out = .ok out)
    {count k : Nat} (hout : out.size ≤ 2 * mostEntries) (hmany : 2 * mostEntries < out.size + count) :
    layElements top entries inside count k out = .error (.layoutTooLarge top) := by
  induction count generalizing k out with
  | zero => omega
  | succ count ih =>
      have hpos := hentries k
      have hsize : (out ++ entries k).size = out.size + (entries k).length := by
        rw [← Array.length_toList, Array.toList_appendList, List.length_append, Array.length_toList]
      simp only [layElements]
      split
      · rfl
      · rw [hinside]
        exact ih (by omega) (by omega)

/-- A type of which a list holds all pairs. -/
structure FewPairs (c : Catalog) (t : Target) (pairs : List (Nat × TypeHash)) : Prop where
  listed {hash : TypeHash} {offset : Nat} {o : Occurrence} :
    c.Occurs t hash offset o → (offset, hash) ∈ pairs
  few : pairs.length < probeLimit
  real : ∀ p ∈ pairs, p.2 ≠ .nil

variable {pairs : List (Nat × TypeHash)}

theorem FewPairs.not_manyPairs (h : c.FewPairs t pairs) : ¬ c.ManyPairs t := by
  rintro ⟨others, hnodup, hmany, hoccurs⟩
  have hsub : others ⊆ pairs := fun p hp => by
    obtain ⟨o, ho⟩ := hoccurs p hp
    exact h.listed ho
  have hle := (hnodup.subperm hsub).length_le
  have hfew := h.few
  have hlimit : probeLimit ≤ mostEntries := by decide
  omega

/-- Fewer than eight different entries always find their places. -/
theorem FewPairs.not_unplaceable (h : c.FewPairs t pairs) (seed : TypeHash) :
    ¬ c.Unplaceable seed t := by
  rintro ⟨os, hos, hnone⟩
  have hentries : (os.flatMap Occurrence.entries).toArray.toList = os.flatMap Occurrence.entries := rfl
  obtain ⟨hnodup, hoccurs⟩ := occurs_of_firstOfEach hos hentries
  have hsub : ((firstOfEach (os.flatMap Occurrence.entries).toArray).map
      fun e => (e.offset, e.hash)) ⊆ pairs := fun p hp => by
    obtain ⟨o, ho⟩ := hoccurs p hp
    exact h.listed ho
  have hle := (hnodup.subperm hsub).length_le
  rw [List.length_map] at hle
  have hsome : (Layout.Table.fill? seed _ Layout.mostBits).isSome = true :=
    Layout.Table.fill?_isSome (by decide) (Nat.lt_of_le_of_lt hle h.few)
      fun e he => h.real _ (hsub (List.mem_map_of_mem he))
  rw [hnone] at hsome
  cases hsome

def hollow : Declaration := .ofSize "struct hollow" 0

def hollows : Field := ⟨"hollows", "struct hollow", 0, 2 * mostEntries⟩

def swarm : Declaration := { Declaration.ofSize "struct swarm" 4 with fields := [hollows] }

def swarming : Catalog := ⟨.spread, [swarm, hollow]⟩

theorem swarming_resolve (owner : String) : swarming.resolve owner hollows.typeName =
    .ok ⟨hollow.typeHash NameHasher.spread, 0, none, some hollow⟩ := rfl

theorem hollows_refused {top : String} {out : Array Entry} (hsize : out.size = 1) :
    swarming.layField top mostDepth swarm 0 out hollows = .error (.layoutTooLarge top) := by
  have hinside (base : Nat) (out : Array Entry) :
      swarming.layFields top mostDepth hollow base out = .ok out := rfl
  have hend : elementsEnd? (0 + hollows.offset) hollows 0 = .ok 0 := rfl
  have hfits : ¬ swarm.size < 0 - 0 := by decide
  have hcount : hollows.count = 2 * mostEntries := rfl
  rw [layField, bind_of_ok (swarming_resolve _)]
  dsimp only
  rw [bind_of_ok hend, if_neg hfits]
  refine layElements_refused (fun _ => ?_) (fun _ _ => hinside _ _) ?_ ?_
  · rw [elementEntries, List.length_map]
    exact Nat.succ_pos _
  · rw [hsize]
    decide
  · omega

theorem swarm_refused {shapes : Shapes} :
    swarming.recordOf shapes swarm = .error (.layoutTooLarge swarm.name) := by
  have hcoercion : swarming.coercionOf swarm = .ok none := rfl
  have hfields : swarm.fields = [hollows] := rfl
  have hlaid : swarming.layFields swarm.name (mostDepth + 1) swarm 0
      (TypeRecord.selfEntries (swarm.typeHash swarming.hasher) none).toArray =
        .error (.layoutTooLarge swarm.name) := by
    rw [layFields_succ, hfields, List.foldlM_cons, bind_of_error (hollows_refused rfl)]
  rw [recordOf, bind_of_ok hcoercion, bind_of_error hlaid]

theorem swarming_build : swarming.build = .error (.layoutTooLarge "struct swarm") := by
  have hshapes : swarming.shapes = .ok (swarming.shapes.toOption.get (by decide +kernel)) :=
    ok_get _
  have hdeclarations : swarming.declarations = [swarm, hollow] := rfl
  rw [build, bind_of_ok hshapes, hdeclarations, List.mapM_cons, bind_of_error swarm_refused]
  rfl

theorem swarming_too_large : swarming.build = .error (.layoutTooLarge "struct swarm") ∧
    ∃ d ∈ swarming.declarations, d.name = "struct swarm" ∧ ∃ t, swarming.Knows t ∧
      t.declaration = some d ∧
      (swarming.ManyPairs t ∨ swarming.Unplaceable (d.tableHash NameHasher.spread) t ∨
        swarming.Crowded t) :=
  ⟨swarming_build, too_large_only_if swarming_build⟩

/-! ## A type that is refused for its repeated entries -/

/-- Nothing is wrong with the declarations but, maybe, the size of a layout: the types have names and
hashes of their own, all names lead to types, these are nested a few levels deep, and all fields end
within their types. -/
structure Sensible (c : Catalog) : Prop where
  declarable : Declarable c.declarations
  closed : c.Closed
  hashes : (Builtin.all.map (·.hash c.hasher) ++ c.declarations.map (·.typeHash c.hasher)).Nodup
  acyclic : ∀ t, ¬ TransGen c.Embeds t t
  shallow : ∀ t, ¬ c.Nests (mostDepth + 1) t
  fit : c.FieldsFit

theorem embeds_swarming {a b : String} (h : swarming.Embeds a b) :
    a = "struct swarm" ∧ b = "struct hollow" := by
  obtain ⟨d, listed, rfl, f, hf, rfl⟩ := h
  rcases List.mem_pair.mp listed with rfl | rfl
  · obtain rfl := List.mem_singleton.mp hf
    exact ⟨rfl, rfl⟩
  · cases hf

theorem nests_swarming {n : Nat} {a : String} (h : swarming.Nests n a) : n ≤ 1 := by
  cases h with
  | whole => exact Nat.zero_le 1
  | inside embedded inner =>
      cases inner with
      | whole => exact Nat.le_refl 1
      | inside embedded' =>
          have heq := (embeds_swarming embedded).2.symm.trans (embeds_swarming embedded').1
          exact absurd heq (by decide)

theorem sensible_swarming : swarming.Sensible where
  declarable := ⟨by decide +kernel, by decide +kernel⟩
  closed := ⟨by decide +kernel, by decide +kernel⟩
  hashes := by decide +kernel
  acyclic t h := by
    obtain ⟨_, hfirst, _⟩ := TransGen.head'_iff.mp h
    obtain ⟨_, _, hlast⟩ := TransGen.tail'_iff.mp h
    have heq := (embeds_swarming hfirst).1.symm.trans (embeds_swarming hlast).2
    exact absurd heq (by decide)
  shallow t h := absurd (nests_swarming h) (by decide)
  fit d listed f hf t named := by
    rcases List.mem_pair.mp listed with rfl | rfl
    · obtain rfl := List.mem_singleton.mp hf
      obtain rfl := Except.ok.inj ((swarming_resolve _).symm.trans named)
      decide
    · cases hf

theorem places_swarming {d : Declaration} (listed : d ∈ swarming.declarations) {p : Part}
    (h : swarming.Places d p) :
    p.offset = 0 ∧ p.target = ⟨hollow.typeHash NameHasher.spread, 0, none, some hollow⟩ := by
  obtain ⟨i, f, hfield, target, k, named, _, hin⟩ := places_iff.mp h
  have hf := List.mem_of_getElem? hfield
  rcases List.mem_pair.mp listed with rfl | rfl
  · obtain rfl := List.mem_singleton.mp hf
    obtain rfl := Except.ok.inj ((swarming_resolve _).symm.trans named)
    rcases hin with rfl | ⟨q, ⟨child, hchild, hq⟩, _⟩
    · exact ⟨rfl, rfl⟩
    · obtain rfl := Option.some.inj hchild
      obtain ⟨_, _, hnone, _⟩ := places_iff.mp hq
      cases hnone
  · cases hf

theorem hashes_swarming {d : Declaration} (listed : d ∈ swarming.declarations)
    (known : swarming.Knows t) (declared : t.declaration = some d) :
    t.hashes = [d.typeHash NameHasher.spread] ∧ d.flexible = none := by
  cases known with
  | builtin => cases declared
  | declared _ coerced =>
      obtain rfl := Option.some.inj declared
      rcases List.mem_pair.mp listed with rfl | rfl
      · obtain rfl := Except.ok.inj coerced
        exact ⟨rfl, rfl⟩
      · obtain rfl := Except.ok.inj coerced
        exact ⟨rfl, rfl⟩

theorem fewPairs_swarming {d : Declaration} (listed : d ∈ swarming.declarations)
    (known : swarming.Knows t) (declared : t.declaration = some d) :
    swarming.FewPairs t
      [(0, swarm.typeHash NameHasher.spread), (0, hollow.typeHash NameHasher.spread)] where
  listed {hash offset o} h := by
    obtain ⟨hhashes, hrigid⟩ := hashes_swarming listed known declared
    obtain ⟨contained, hnamed, rfl⟩ := h
    rcases contains_iff.mp contained with rfl | ⟨p, ⟨d', hd', hp⟩, rfl⟩ | ⟨d', hd', f, _, hf, _⟩
    · obtain rfl := List.mem_singleton.mp (hhashes ▸ hnamed)
      rcases List.mem_pair.mp listed with rfl | rfl
      · exact List.mem_cons_self
      · exact List.mem_cons_of_mem _ List.mem_cons_self
    · obtain rfl := Option.some.inj (declared.symm.trans hd')
      obtain ⟨hoffset, htarget⟩ := places_swarming listed hp
      simp only [Occurrence.ofPart, htarget] at hnamed
      obtain rfl := List.mem_singleton.mp hnamed
      rw [Occurrence.ofPart, hoffset]
      exact List.mem_cons_of_mem _ List.mem_cons_self
    · obtain rfl := Option.some.inj (declared.symm.trans hd')
      cases hrigid.symm.trans hf
  few := by decide
  real := by decide +kernel

/-- All entries of the swarm are for two pairs, and yet it is refused. -/
theorem repeated_elements_refused : swarming.Sensible ∧
    swarming.build = .error (.layoutTooLarge "struct swarm") ∧
    ∀ d ∈ swarming.declarations, ∀ t, swarming.Knows t → t.declaration = some d →
      ¬ swarming.ManyPairs t ∧ ¬ swarming.Unplaceable (d.tableHash NameHasher.spread) t := by
  refine ⟨sensible_swarming, swarming_build, fun d listed t known declared => ?_⟩
  have hfew := fewPairs_swarming listed known declared
  exact ⟨hfew.not_manyPairs, hfew.not_unplaceable _⟩

end Catalog

end TypedHeap
