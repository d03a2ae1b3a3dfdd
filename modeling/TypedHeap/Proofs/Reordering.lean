import TypedHeap.Proofs.Shapes
import TypedHeap.Proofs.SubObjects

/-! # Declarations in another order

Declarations may refer to later ones, so a list of them is accepted or not whatever their order. What
a name stands for, and with it every layout and every shape, follows from the set of declarations,
since no two have the same name. Only the order of the records is that of the declarations.
-/

namespace TypedHeap

theorem find?_perm {α β : Type} [DecidableEq β] {key : α → β} {l l' : List α}
    (hl : (l.map key).Nodup) (perm : l'.Perm l) (k : β) :
    l'.find? (key · = k) = l.find? (key · = k) := by
  cases hfind : l.find? (key · = k) with
  | none =>
      refine List.find?_eq_none.mpr fun a ha => ?_
      exact List.find?_eq_none.mp hfind a (perm.mem_iff.mp ha)
  | some a =>
      obtain rfl : key a = k := by simpa using List.find?_some hfind
      have hl' : (l'.map key).Nodup := (perm.map key).nodup_iff.mpr hl
      exact find?_of_nodup hl' (perm.mem_iff.mpr (List.mem_of_find?_eq_some hfind))

/-! ## Registries -/

namespace Registry

variable {r r' : Registry}

/-- The registries hold equal records, and find them under the same hashes and names. -/
structure Equivalent (r r' : Registry) : Prop where
  records_perm : r'.records.Perm r.records
  find?_eq (hash : TypeHash) : r'.find? hash = r.find? hash
  findName?_eq (name : String) : r'.findName? name = r.findName? name

theorem Sound.perm (hs : r.Sound) (perm : r'.records.Perm r.records) : r'.Sound :=
  ⟨(perm.map _).nodup_iff.mpr hs.hashes, (perm.map _).nodup_iff.mpr hs.names,
    fun record hrecord => hs.real record (perm.mem_iff.mp hrecord)⟩

theorem Sound.equivalent (hs : r.Sound) (perm : r'.records.Perm r.records) : r.Equivalent r' := by
  refine ⟨perm, fun hash => ?_, fun name => find?_perm hs.names perm name⟩
  rw [find?, find?, find?_perm hs.hashes perm hash]

/-- A record is accepted if the registry with it is sound, whatever else comes behind it. -/
theorem insert_of_sound {record : TypeRecord} {rest : List TypeRecord}
    (hs : (⟨r.records ++ record :: rest⟩ : Registry).Sound) :
    r.insert record = .ok ⟨r.records ++ [record]⟩ := by
  obtain ⟨hashes, names, real⟩ := hs
  obtain ⟨hnil, hfree⟩ := real record (by simp)
  rw [List.map_append, List.nodup_append] at hashes names
  have hhash : ¬ (r.records.any (·.hash = record.hash)) = true := by
    rw [List.any_eq_true]
    rintro ⟨x, hx, heq⟩
    exact hashes.2.2 _ (List.mem_map_of_mem hx) _ List.mem_cons_self (of_decide_eq_true heq)
  have hname : ¬ (r.records.any (·.name = record.name)) = true := by
    rw [List.any_eq_true]
    rintro ⟨x, hx, heq⟩
    exact names.2.2 _ (List.mem_map_of_mem hx) _ List.mem_cons_self (of_decide_eq_true heq)
  rw [insert, if_neg (by simp [hnil, hfree, hhash]), if_neg hname]

theorem foldlM_insert_of_sound {records : List TypeRecord}
    (hs : (⟨r.records ++ records⟩ : Registry).Sound) :
    records.foldlM insert r = .ok ⟨r.records ++ records⟩ := by
  induction records generalizing r with
  | nil => simp [pure, Except.pure]
  | cons record records ih =>
      rw [List.foldlM_cons, insert_of_sound hs]
      rw [List.append_cons r.records record records] at hs ⊢
      exact ih hs

end Registry

namespace Catalog

/-! ## Declaring -/

/-- The names are all different, and none is that of a built-in type. -/
structure Declarable (ds : List Declaration) : Prop where
  names : (ds.map (·.name)).Nodup
  fresh : ∀ d ∈ ds, Builtin.find? d.name = none

theorem Declarable.perm {ds ds' : List Declaration} (h : Declarable ds) (perm : ds'.Perm ds) :
    Declarable ds' :=
  ⟨(perm.map _).nodup_iff.mpr h.names, fun d hd => h.fresh d (perm.mem_iff.mp hd)⟩

theorem declare_eq_ok_iff {c c' : Catalog} {d : Declaration} :
    c.declare d = .ok c' ↔
      Builtin.find? d.name = none ∧ (∀ x ∈ c.declarations, x.name ≠ d.name) ∧
        c' = ⟨c.hasher, c.declarations ++ [d]⟩ := by
  unfold declare find?
  split
  · next h =>
    refine ⟨nofun, fun ⟨hfresh, hnew, _⟩ => absurd h ?_⟩
    simpa [hfresh] using hnew
  · next h =>
    simp only [not_or, Bool.not_eq_true, Option.isSome_eq_false_iff, Option.isNone_iff_eq_none,
      List.find?_eq_none, decide_eq_true_eq] at h
    exact ⟨fun heq => ⟨h.1, h.2, (Except.ok.inj heq).symm⟩, fun ⟨_, _, heq⟩ => heq ▸ rfl⟩

theorem declareAll_eq_ok {c c' : Catalog} {ds : List Declaration}
    (hc : (c.declarations.map (·.name)).Nodup) (h : c.declareAll ds = .ok c') :
    c' = ⟨c.hasher, c.declarations ++ ds⟩ ∧ ((c.declarations ++ ds).map (·.name)).Nodup ∧
      ∀ d ∈ ds, Builtin.find? d.name = none := by
  induction ds generalizing c with
  | nil =>
      obtain rfl := Except.ok.inj h
      rw [List.append_nil]
      exact ⟨rfl, hc, nofun⟩
  | cons d ds ih =>
      rw [declareAll, List.foldlM_cons] at h
      obtain ⟨next, hd, h⟩ := ok_of_bind h
      obtain ⟨hfresh, hnew, rfl⟩ := declare_eq_ok_iff.mp hd
      obtain ⟨hnext, hnodup, hrest⟩ := ih (nodup_concat hc hnew) h
      rw [List.append_assoc, List.singleton_append] at hnext hnodup
      exact ⟨hnext, hnodup, List.forall_mem_cons.mpr ⟨hfresh, hrest⟩⟩

theorem declareAll_of_nodup {c : Catalog} {ds : List Declaration}
    (hnodup : ((c.declarations ++ ds).map (·.name)).Nodup)
    (hfresh : ∀ d ∈ ds, Builtin.find? d.name = none) :
    c.declareAll ds = .ok ⟨c.hasher, c.declarations ++ ds⟩ := by
  induction ds generalizing c with
  | nil => simp [declareAll, pure, Except.pure]
  | cons d ds ih =>
      obtain ⟨hd, hrest⟩ := List.forall_mem_cons.mp hfresh
      have hnew (x : Declaration) (hx : x ∈ c.declarations) : x.name ≠ d.name := by
        rw [List.map_append, List.nodup_append] at hnodup
        exact hnodup.2.2 _ (List.mem_map_of_mem hx) _ List.mem_cons_self
      rw [declareAll, List.foldlM_cons, declare_eq_ok_iff.mpr ⟨hd, hnew, rfl⟩]
      rw [List.append_cons c.declarations d ds] at hnodup ⊢
      exact ih hnodup hrest

theorem declareAll_eq_ok_iff {hasher : NameHasher} {c : Catalog} {ds : List Declaration} :
    (empty hasher).declareAll ds = .ok c ↔ c = ⟨hasher, ds⟩ ∧ Declarable ds := by
  constructor
  · intro h
    have hempty : ((empty hasher).declarations.map (·.name)).Nodup := List.nodup_nil
    obtain ⟨hc, hnames, hfresh⟩ := declareAll_eq_ok hempty h
    exact ⟨hc, hnames, hfresh⟩
  · rintro ⟨rfl, hnames, hfresh⟩
    exact declareAll_of_nodup hnames hfresh

/-! ## Catalogs that find the same declarations -/

section SameNames

variable {c c' : Catalog} (same : c'.find? = c.find?) (hashed : c'.hasher = c.hasher)

include same hashed

theorem coercionOf_congr : c'.coercionOf = c.coercionOf := by
  funext d
  simp only [coercionOf, same, hashed]

theorem resolve_congr : c'.resolve = c.resolve := by
  funext owner name
  simp only [resolve, same, hashed, coercionOf_congr same hashed]

theorem layFields_congr (top : String) (depth : Nat) :
    c'.layFields top depth = c.layFields top depth := by
  induction depth with
  | zero => rfl
  | succ depth ih =>
      funext d base out
      simp only [layFields, resolve_congr same hashed, ih]

theorem layFlexible_congr : c'.layFlexible = c.layFlexible := by
  funext d out
  simp only [layFlexible, resolve_congr same hashed, layFields_congr same hashed]

theorem shapeWithin_congr (depth : Nat) : c'.shapeWithin depth = c.shapeWithin depth := by
  induction depth with
  | zero => rfl
  | succ depth ih =>
      funext name
      simp only [shapeWithin, resolve_congr same hashed, ih]

theorem HasShape.congr {name : String} {shape : Shape} (h : c.HasShape name shape) :
    c'.HasShape name shape := by
  obtain ⟨depth, h⟩ := h
  exact ⟨depth, by rw [shapeWithin_congr same hashed, h]⟩

theorem recordOf_congr {shapes shapes' : Shapes} {d : Declaration}
    (hshape : shapes'[d.name]? = shapes[d.name]?) :
    c'.recordOf shapes' d = c.recordOf shapes d := by
  simp only [recordOf, coercionOf_congr same hashed, layFields_congr same hashed,
    layFlexible_congr same hashed, hashed, hshape]

end SameNames

/-! ## Building -/

/-- What is built from a catalog is built from any other one with the same declarations. -/
theorem build_perm {c c' : Catalog} {registry : Registry} (hashed : c'.hasher = c.hasher)
    (hnames : (c.declarations.map (·.name)).Nodup) (perm : c'.declarations.Perm c.declarations)
    (built : c.build = .ok registry) :
    ∃ registry', c'.build = .ok registry' ∧ registry.Equivalent registry' := by
  have same : c'.find? = c.find? := funext (find?_perm hnames perm)
  obtain ⟨shapes, records, h⟩ := build_eq_ok built
  -- the shapes are found in another order, but they are the same
  obtain ⟨shapes', hshapes'⟩ : ∃ shapes', c'.shapes = .ok shapes' := by
    refine shapes_complete fun d hd => ?_
    obtain ⟨shape, _, hshape⟩ := shapes_eq_ok h.found (perm.mem_iff.mp hd)
    exact ⟨shape, hshape.congr same hashed⟩
  have hrecord (d : Declaration) (hd : d ∈ c'.declarations) :
      c'.recordOf shapes' d = c.recordOf shapes d := by
    obtain ⟨shape, hget, hshape⟩ := shapes_eq_ok h.found (perm.mem_iff.mp hd)
    obtain ⟨shape', hget', hshape'⟩ := shapes_eq_ok hshapes' hd
    refine recordOf_congr same hashed ?_
    rw [hget, hget', hshape'.unique (hshape.congr same hashed)]
  obtain ⟨records', hresults, hperm⟩ := results_perm perm h.results
  rw [← List.map_congr_left hrecord] at hresults
  have hall : ((Registry.builtins c.hasher).records ++ records').Perm registry.records :=
    h.records_eq ▸ hperm.append_left _
  have hsound : (⟨(Registry.builtins c.hasher).records ++ records'⟩ : Registry).Sound :=
    h.sound.perm hall
  refine ⟨⟨(Registry.builtins c.hasher).records ++ records'⟩, ?_, h.sound.equivalent hall⟩
  rw [build, hshapes', hashed]
  show (c'.declarations.mapM (c'.recordOf shapes') >>= _) = _
  rw [mapM_of_map_eq hresults]
  exact Registry.foldlM_insert_of_sound hsound

/-- The declarations are accepted, and the registry is built from them. -/
def Builds (hasher : NameHasher) (ds : List Declaration) (registry : Registry) : Prop :=
  ∃ c, (empty hasher).declareAll ds = .ok c ∧ c.build = .ok registry

variable {hasher : NameHasher} {ds ds' : List Declaration}

theorem Builds.perm {registry : Registry} (h : Builds hasher ds registry) (perm : ds'.Perm ds) :
    ∃ registry', Builds hasher ds' registry' ∧ registry.Equivalent registry' := by
  obtain ⟨c, hc, built⟩ := h
  obtain ⟨rfl, hdeclarable⟩ := declareAll_eq_ok_iff.mp hc
  have hc' : (empty hasher).declareAll ds' = .ok ⟨hasher, ds'⟩ :=
    declareAll_eq_ok_iff.mpr ⟨rfl, hdeclarable.perm perm⟩
  obtain ⟨registry', hbuild, hequivalent⟩ :=
    @build_perm ⟨hasher, ds⟩ ⟨hasher, ds'⟩ registry rfl hdeclarable.names perm built
  exact ⟨registry', ⟨_, hc', hbuild⟩, hequivalent⟩

/-- The order of declarations does not matter. They are accepted in all orders or in none, and the
registries built from them hold equal records under the same hashes and names: records of one size,
coercion and shape that fold offsets alike and find the same entry in the same place of the table. -/
theorem builds_reordered (hasher : NameHasher) (perm : ds'.Perm ds) :
    ((∃ registry, Builds hasher ds registry) ↔ ∃ registry, Builds hasher ds' registry) ∧
      ∀ registry registry', Builds hasher ds registry → Builds hasher ds' registry' →
        registry.Equivalent registry' := by
  refine ⟨⟨fun ⟨_, h⟩ => ?_, fun ⟨_, h⟩ => ?_⟩, fun registry registry' h h' => ?_⟩
  · obtain ⟨registry', h', _⟩ := h.perm perm
    exact ⟨registry', h'⟩
  · obtain ⟨registry', h', _⟩ := h.perm perm.symm
    exact ⟨registry', h'⟩
  · obtain ⟨other, hother, hequivalent⟩ := h.perm perm
    obtain ⟨c, hc, built⟩ := h'
    obtain ⟨c', hc', built'⟩ := hother
    obtain rfl := Except.ok.inj (hc.symm.trans hc')
    obtain rfl := Except.ok.inj (built.symm.trans built')
    exact hequivalent

/-- A structure may be declared before the ones that lie in it. -/
theorem nested_reordered :
    [outer, pair].Perm [pair, outer] ∧ Builds .spread [pair, outer] nestedRegistry ∧
      ∃ registry, Builds .spread [outer, pair] registry ∧ nestedRegistry.Equivalent registry := by
  have perm : [outer, pair].Perm [pair, outer] := .swap pair outer []
  have hdeclared : (empty .spread).declareAll [pair, outer] = .ok nested := rfl
  have hbuilds : Builds .spread [pair, outer] nestedRegistry := ⟨nested, hdeclared, nested_build⟩
  obtain ⟨haccepted, hequivalent⟩ := builds_reordered .spread perm
  obtain ⟨registry, hreordered⟩ := haccepted.mp ⟨_, hbuilds⟩
  exact ⟨perm, hbuilds, registry, hreordered, hequivalent _ _ hbuilds hreordered⟩

end Catalog

end TypedHeap
