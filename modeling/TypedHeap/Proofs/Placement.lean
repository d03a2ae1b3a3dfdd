import TypedHeap.Proofs.Success
import TypedHeap.Registry.Catalog

/-! # Where objects lie in a declared type

A declaration places the elements of its fields, and within each element what the declaration of
its type places. An element is known by its path: the field and the index at every level. Laying
out a declaration appends the entries of just these elements, in pre-order.
-/

namespace TypedHeap

open Layout (Entry)

/-- A path is before another one if it leads to it, or turns off at an earlier field or element. -/
def Before : List (Nat × Nat) → List (Nat × Nat) → Prop
  | _, [] => False
  | [], _ :: _ => True
  | (i, k) :: a, (j, l) :: b => i < j ∨ i = j ∧ (k < l ∨ k = l ∧ Before a b)

theorem Before.asymm : ∀ {a b : List (Nat × Nat)}, Before a b → ¬ Before b a
  | [], [], h, _ => h
  | _ :: _, [], h, _ => h
  | [], _ :: _, _, h => h
  | (i, k) :: a, (j, l) :: b, h, h' => by
      rcases h with hfield | ⟨rfl, helement | ⟨rfl, hrest⟩⟩
      · rcases h' with hfield' | ⟨hfield', _⟩ <;> omega
      · rcases h' with hfield' | ⟨_, helement' | ⟨helement', _⟩⟩ <;> omega
      · rcases h' with hfield' | ⟨_, helement' | ⟨_, hrest'⟩⟩
        · omega
        · omega
        · exact hrest.asymm hrest'

theorem before_of_ne_nil : ∀ {path : List (Nat × Nat)}, path ≠ [] → Before [] path
  | [], h => h rfl
  | _ :: _, _ => trivial

/-- An element of a field, at `offset` of the type around it, with the range of the field there. -/
structure Part where
  path : List (Nat × Nat)
  name : String
  start : Nat
  finish : Nat
  offset : Nat
  target : Catalog.Target

def Field.part (f : Field) (i k : Nat) (target : Catalog.Target) : Part where
  path := [(i, k)]
  name := f.name
  start := f.offset
  finish := f.offset + f.count * target.size
  offset := f.offset + k * target.size
  target := target

namespace Part

/-- The part of a type as one of the type around it, in the element `k` of the field `i` there. -/
def under (p : Part) (i k base : Nat) : Part :=
  { p with
    path := (i, k) :: p.path
    start := base + p.start
    finish := base + p.finish
    offset := base + p.offset }

def entries (base : Nat) (p : Part) : List Entry :=
  Catalog.elementEntries p.name p.target (base + p.start) (base + p.finish) (base + p.offset)

theorem entries_under (base : Nat) (p : Part) (i k shift : Nat) :
    (p.under i k shift).entries base = p.entries (base + shift) := by
  simp only [entries, under, Nat.add_assoc]

end Part

namespace Catalog

/-- The declaration places the part. -/
inductive Places (c : Catalog) : Declaration → Part → Prop where
  | element {d : Declaration} {f : Field} {i k : Nat} {target : Target}
      (field : d.fields[i]? = some f) (named : c.resolve d.name f.typeName = .ok target)
      (bound : k < f.count) : Places c d (f.part i k target)
  | within {d child : Declaration} {f : Field} {i k : Nat} {target : Target} {p : Part}
      (field : d.fields[i]? = some f) (named : c.resolve d.name f.typeName = .ok target)
      (bound : k < f.count) (declared : target.declaration = some child)
      (inner : Places c child p) : Places c d (p.under i k (f.offset + k * target.size))

def Holds (c : Catalog) (t : Target) (p : Part) : Prop :=
  ∃ d, t.declaration = some d ∧ c.Places d p

def InElement (c : Catalog) (f : Field) (i : Nat) (target : Target) (k : Nat) (p : Part) : Prop :=
  p = f.part i k target ∨
    ∃ q, c.Holds target q ∧ p = q.under i k (f.offset + k * target.size)

def InField (c : Catalog) (owner : String) (f : Field) (i : Nat) (p : Part) : Prop :=
  ∃ target k, c.resolve owner f.typeName = .ok target ∧ k < f.count ∧ c.InElement f i target k p

theorem places_iff {c : Catalog} {d : Declaration} {p : Part} :
    c.Places d p ↔ ∃ i f, d.fields[i]? = some f ∧ c.InField d.name f i p := by
  constructor
  · intro h
    cases h with
    | element field named bound => exact ⟨_, _, field, _, _, named, bound, .inl rfl⟩
    | within field named bound declared inner =>
        exact ⟨_, _, field, _, _, named, bound, .inr ⟨_, ⟨_, declared, inner⟩, rfl⟩⟩
  · intro h
    rcases h with ⟨i, f, field, target, k, named, bound, rfl | ⟨q, ⟨_, declared, inner⟩, rfl⟩⟩
    · exact .element field named bound
    · exact .within field named bound declared inner

theorem Places.path_ne_nil {c : Catalog} {d : Declaration} {p : Part} (h : c.Places d p) :
    p.path ≠ [] := by
  cases h with
  | element => exact nofun
  | within => exact nofun

theorem InElement.path_eq {c : Catalog} {f : Field} {i k : Nat} {target : Target} {p : Part}
    (h : c.InElement f i target k p) : ∃ rest, p.path = (i, k) :: rest := by
  rcases h with rfl | ⟨q, _, rfl⟩
  · exact ⟨[], rfl⟩
  · exact ⟨q.path, rfl⟩

/-- An element and what lies in it come before a later element of the field, or of a later field. -/
theorem InElement.before {c : Catalog} {f g : Field} {i j k l : Nat} {target other : Target}
    {p q : Part} (hp : c.InElement f i target k p) (hq : c.InElement g j other l q)
    (hlt : i < j ∨ i = j ∧ k < l) : Before p.path q.path := by
  obtain ⟨_, hppath⟩ := hp.path_eq
  obtain ⟨_, hqpath⟩ := hq.path_eq
  rw [hppath, hqpath]
  exact hlt.imp_right fun h => ⟨h.1, .inl h.2⟩

theorem Holds.after_part {c : Catalog} {t target : Target} {q : Part} (h : c.Holds t q) (f : Field)
    (i k shift : Nat) : Before (f.part i k target).path (q.under i k shift).path := by
  obtain ⟨_, _, hq⟩ := h
  exact .inr ⟨rfl, .inr ⟨rfl, before_of_ne_nil hq.path_ne_nil⟩⟩

/-! ## What laying out appends -/

/-- `parts` are the parts with the property `P`, in pre-order, and `out'` has their entries behind
those of `out`. -/
structure Appends (base : Nat) (out out' : Array Entry) (P : Part → Prop) (parts : List Part) :
    Prop where
  toList_eq : out'.toList = out.toList ++ parts.flatMap (Part.entries base)
  mem_iff (p : Part) : p ∈ parts ↔ P p
  ordered : parts.Pairwise fun p q => Before p.path q.path

theorem Appends.append {base : Nat} {out out₁ out₂ : Array Entry} {P Q : Part → Prop}
    {ps qs : List Part} (hp : Appends base out out₁ P ps) (hq : Appends base out₁ out₂ Q qs)
    (hbefore : ∀ p q, P p → Q q → Before p.path q.path) :
    Appends base out out₂ (fun p => P p ∨ Q p) (ps ++ qs) := by
  refine ⟨?_, fun p => ?_, ?_⟩
  · rw [hq.toList_eq, hp.toList_eq, List.flatMap_append, List.append_assoc]
  · rw [List.mem_append, hp.mem_iff, hq.mem_iff]
  · refine List.pairwise_append.mpr ⟨hp.ordered, hq.ordered, fun p hpm q hqm => ?_⟩
    exact hbefore p q ((hp.mem_iff p).mp hpm) ((hq.mem_iff q).mp hqm)

theorem Appends.congr {base : Nat} {out out' : Array Entry} {P Q : Part → Prop}
    {parts : List Part} (h : Appends base out out' P parts) (heq : ∀ p, P p ↔ Q p) :
    Appends base out out' Q parts :=
  ⟨h.toList_eq, fun p => (h.mem_iff p).trans (heq p), h.ordered⟩

theorem Appends.under {base shift : Nat} {out out' : Array Entry} {P : Part → Prop}
    {parts : List Part} (h : Appends (base + shift) out out' P parts) (i k : Nat) :
    Appends base out out' (fun p => ∃ q, P q ∧ p = q.under i k shift)
      (parts.map fun q => q.under i k shift) := by
  refine ⟨?_, fun p => ?_, ?_⟩
  · simp only [h.toList_eq, List.flatMap_map, Part.entries_under]
  · simp only [List.mem_map, h.mem_iff]
    exact ⟨fun ⟨q, hq, heq⟩ => ⟨q, hq, heq.symm⟩, fun ⟨q, hq, heq⟩ => ⟨q, hq, heq.symm⟩⟩
  · exact List.pairwise_map.mpr (h.ordered.imp fun hb => .inr ⟨rfl, .inr ⟨rfl, hb⟩⟩)

/-! ## Laying out -/

variable {c : Catalog} {base : Nat} {out out' : Array Entry}

theorem Appends.nil (base : Nat) (out : Array Entry) {P : Part → Prop} (hnone : ∀ p, ¬ P p) :
    Appends base out out P [] :=
  ⟨by simp, fun p => ⟨nofun, fun h => absurd h (hnone p)⟩, .nil⟩

theorem Appends.one (base : Nat) (out : Array Entry) (p : Part) :
    Appends base out (out ++ p.entries base) (· = p) [p] :=
  ⟨by simp, fun q => List.mem_singleton, List.pairwise_singleton _ p⟩

def Inside (c : Catalog) (base : Nat) (f : Field) (i : Nat) (target : Target)
    (inside : Nat → Array Entry → Except RegistryError (Array Entry)) : Prop :=
  ∀ k out out', inside k out = .ok out' → ∃ parts, Appends base out out'
    (fun p => ∃ q, c.Holds target q ∧ p = q.under i k (f.offset + k * target.size)) parts

/-- The elements of a field come one after the other, each before what lies in it. -/
theorem appends_layElements {f : Field} {i : Nat} {target : Target} {top : String}
    {inside : Nat → Array Entry → Except RegistryError (Array Entry)}
    (hinside : c.Inside base f i target inside) {count k : Nat}
    (h : layElements top (fun k => (f.part i k target).entries base) inside count k out =
      .ok out') :
    ∃ parts, Appends base out out'
      (fun p => ∃ l, k ≤ l ∧ l < k + count ∧ c.InElement f i target l p) parts := by
  induction count generalizing k out with
  | zero =>
      obtain rfl := Except.ok.inj h
      exact ⟨[], .nil base out fun p ⟨l, _, _, _⟩ => by omega⟩
  | succ count ih =>
      simp only [layElements] at h
      split at h
      · cases h
      · obtain ⟨between, hfirst, hrest⟩ := ok_of_bind h
        obtain ⟨inner, hinner⟩ := hinside k _ between hfirst
        obtain ⟨later, hlater⟩ := ih hrest
        -- the element, what lies in it, and then the later elements
        have helement := (Appends.one base out (f.part i k target)).append hinner ?_
        · refine ⟨_, (helement.append hlater ?_).congr fun p => ⟨?_, ?_⟩⟩
          · intro p q hp h
            rcases h with ⟨l, hkl, _, hq⟩
            exact InElement.before hp hq (.inr ⟨rfl, hkl⟩)
          · intro h
            rcases h with hp | ⟨l, hkl, hl, hp⟩
            · exact ⟨k, by omega, by omega, hp⟩
            · exact ⟨l, by omega, by omega, hp⟩
          · intro h
            rcases h with ⟨l, hkl, hl, hp⟩
            rcases Nat.eq_or_lt_of_le hkl with rfl | hlt
            · exact .inl hp
            · exact .inr ⟨l, hlt, by omega, hp⟩
        · intro p q heq h
          subst heq
          rcases h with ⟨x, hx, rfl⟩
          exact hx.after_part f i k _

theorem appends_fields {owner : String}
    {lay : Array Entry → Field → Except RegistryError (Array Entry)}
    (hlay : ∀ f i out out', lay out f = .ok out' →
      ∃ parts, Appends base out out' (c.InField owner f i) parts)
    {fields : List Field} (i : Nat) (h : fields.foldlM lay out = .ok out') :
    ∃ parts, Appends base out out'
      (fun p => ∃ j f, fields[j]? = some f ∧ c.InField owner f (i + j) p) parts := by
  induction fields generalizing i out with
  | nil =>
      obtain rfl := Except.ok.inj h
      exact ⟨[], .nil base out fun p ⟨_, _, hf, _⟩ => nomatch hf⟩
  | cons f fields ih =>
      rw [List.foldlM_cons] at h
      obtain ⟨between, hfirst, hrest⟩ := ok_of_bind h
      obtain ⟨first, hfirst⟩ := hlay f i out between hfirst
      obtain ⟨later, hlater⟩ := ih (i + 1) hrest
      refine ⟨_, (hfirst.append hlater ?_).congr fun p => ⟨?_, ?_⟩⟩
      · intro p q h h'
        rcases h with ⟨_, _, _, _, hp⟩
        rcases h' with ⟨j, _, _, _, _, _, _, hq⟩
        exact hp.before hq (.inl (by omega))
      · intro h
        rcases h with hp | ⟨j, g, hg, hp⟩
        · exact ⟨0, f, rfl, hp⟩
        · refine ⟨j + 1, g, hg, ?_⟩
          rwa [← Nat.add_assoc, Nat.add_right_comm]
      · intro h
        rcases h with ⟨j, g, hg, hp⟩
        cases j with
        | zero =>
            obtain rfl := Option.some.inj hg
            exact .inl hp
        | succ j =>
            refine .inr ⟨j, g, hg, ?_⟩
            rwa [Nat.add_right_comm, Nat.add_assoc]

theorem inside_child {lay : Declaration → Nat → Array Entry → Except RegistryError (Array Entry)}
    (hlay : ∀ child shift out out', lay child shift out = .ok out' →
      ∃ parts, Appends shift out out' (c.Places child) parts)
    (f : Field) (i : Nat) (target : Target) :
    c.Inside base f i target fun k out => match target.declaration with
      | none => .ok out
      | some child => lay child (base + (f.offset + k * target.size)) out := by
  intro k out out' hk
  cases hchild : target.declaration with
  | none =>
      simp only [hchild] at hk
      obtain rfl := Except.ok.inj hk
      exact ⟨[], .nil base out fun p ⟨_, ⟨_, hdecl, _⟩, _⟩ => nomatch hchild.symm.trans hdecl⟩
  | some child =>
      simp only [hchild] at hk
      obtain ⟨parts, hparts⟩ := hlay child _ out out' hk
      refine ⟨_, (hparts.under i k).congr fun p => ⟨?_, ?_⟩⟩
      · intro h
        rcases h with ⟨q, hq, rfl⟩
        exact ⟨q, ⟨child, hchild, hq⟩, rfl⟩
      · intro h
        rcases h with ⟨q, ⟨other, hother, hq⟩, rfl⟩
        obtain rfl := Option.some.inj (hchild.symm.trans hother)
        exact ⟨q, hq, rfl⟩

def layField (c : Catalog) (top : String) (depth : Nat) (d : Declaration) (base : Nat)
    (out : Array Entry) (f : Field) : Except RegistryError (Array Entry) := do
  let target ← c.resolve d.name f.typeName
  let start := base + f.offset
  let finish ← elementsEnd? start f target.size
  if d.size < finish - base then .error (.fieldOutOfBounds d.name f.name)
  else
    layElements top (fun i => elementEntries f.name target start finish (start + i * target.size))
      (fun i out => match target.declaration with
        | none => .ok out
        | some child => c.layFields top depth child (start + i * target.size) out)
      f.count 0 out

theorem layFields_succ (c : Catalog) (top : String) (depth : Nat) (d : Declaration) (base : Nat)
    (out : Array Entry) :
    c.layFields top (depth + 1) d base out = d.fields.foldlM (c.layField top depth d base) out := by
  rw [layFields]
  rfl

theorem elementsEnd?_cases (start : Nat) (f : Field) (size : Nat) :
    elementsEnd? start f size = .ok (start + f.count * size) ∨
      elementsEnd? start f size = .error (.fault .addition) := by
  unfold elementsEnd? Word.add?
  split
  · exact .inl rfl
  · exact .inr rfl

theorem eq_of_elementsEnd? {start size finish : Nat} {f : Field}
    (h : elementsEnd? start f size = .ok finish) : finish = start + f.count * size := by
  rcases elementsEnd?_cases start f size with hok | herror
  · exact Except.ok.inj (h.symm.trans hok)
  · cases h.symm.trans herror

theorem elementsEnd?_ne_error {start size : Nat} {f : Field} {e : RegistryError}
    (he : e ≠ .fault .addition) : elementsEnd? start f size ≠ .error e := by
  intro h
  rcases elementsEnd?_cases start f size with hok | herror
  · cases h.symm.trans hok
  · exact he (Except.error.inj (h.symm.trans herror))

theorem appends_layField {top : String} {depth : Nat} {d : Declaration} {f : Field}
    (hlay : ∀ child shift out out', c.layFields top depth child shift out = .ok out' →
      ∃ parts, Appends shift out out' (c.Places child) parts)
    (i : Nat) (h : c.layField top depth d base out f = .ok out') :
    ∃ parts, Appends base out out' (c.InField d.name f i) parts := by
  obtain ⟨target, named, h⟩ := ok_of_bind h
  obtain ⟨finish, hfinish, h⟩ := ok_of_bind h
  obtain rfl := eq_of_elementsEnd? hfinish
  simp only [Nat.add_assoc] at h
  split at h
  · cases h
  · obtain ⟨parts, hparts⟩ := appends_layElements (inside_child hlay f i target) h
    refine ⟨parts, hparts.congr fun p => ⟨?_, ?_⟩⟩
    · intro h
      rcases h with ⟨k, _, hk, hp⟩
      exact ⟨target, k, named, by omega, hp⟩
    · intro h
      rcases h with ⟨target', k, named', hk, hp⟩
      obtain rfl := Except.ok.inj (named.symm.trans named')
      exact ⟨k, Nat.zero_le k, by omega, hp⟩

/-- A declaration that can be laid out appends the entries of the parts it places, in pre-order. -/
theorem appends_layFields {top : String} {depth : Nat} {d : Declaration}
    (h : c.layFields top depth d base out = .ok out') :
    ∃ parts, Appends base out out' (c.Places d) parts := by
  induction depth generalizing d base out out' with
  | zero => cases h
  | succ depth ih =>
      rw [layFields_succ] at h
      obtain ⟨parts, hparts⟩ := appends_fields
        (fun f i _ _ => appends_layField (fun _ _ _ _ => ih) i) 0 h
      refine ⟨parts, hparts.congr fun p => ?_⟩
      simp only [Nat.zero_add]
      exact places_iff.symm

end Catalog

end TypedHeap
