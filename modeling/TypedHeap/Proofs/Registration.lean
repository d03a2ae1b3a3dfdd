import TypedHeap.Proofs.Records

/-! # Registered types

A registry that is built knows the built-in types and the declared ones, each under a hash of its
own, with the size and the coercion that its declaration gives.
-/

namespace TypedHeap

open Layout (Entry)

theorem find?_of_nodup {α β : Type} [DecidableEq β] {key : α → β} {l : List α}
    (hl : (l.map key).Nodup) {a : α} (ha : a ∈ l) : l.find? (key · = key a) = some a := by
  obtain ⟨front, back, rfl⟩ := List.append_of_mem ha
  refine List.find?_eq_some_iff_append.mpr ⟨by simp, front, back, rfl, fun b hb => ?_⟩
  have hne := (List.pairwise_append.mp (List.pairwise_map.mp hl)).2.2 b hb a List.mem_cons_self
  simpa using hne

theorem nodup_concat {α β : Type} {key : α → β} {l : List α} {a : α} (hl : (l.map key).Nodup)
    (hnew : ∀ x ∈ l, key x ≠ key a) : ((l ++ [a]).map key).Nodup := by
  rw [List.map_append, List.nodup_append]
  refine ⟨hl, List.pairwise_singleton _ _, fun k hk k' hk' => ?_⟩
  obtain ⟨x, hx, rfl⟩ := List.mem_map.mp hk
  obtain rfl := List.mem_singleton.mp hk'
  exact hnew x hx

inductive Catalog.Knows (c : Catalog) : Catalog.Target → Prop where
  | builtin {b : Builtin} (listed : b ∈ Builtin.all) :
      Knows c ⟨b.hash c.hasher, b.size, b.coercion, none⟩
  | declared {d : Declaration} {coercion : Option TypeHash} (listed : d ∈ c.declarations)
      (coerced : c.coercionOf d = .ok coercion) :
      Knows c ⟨d.typeHash c.hasher, d.size, coercion, some d⟩

namespace Catalog

variable {c : Catalog} {d : Declaration} {t : Target}

theorem mem_of_find? {name : String} (h : c.find? name = some d) :
    d ∈ c.declarations ∧ d.name = name :=
  ⟨List.mem_of_find?_eq_some h, by simpa using List.find?_some h⟩

theorem knows_of_resolve {owner name : String} (h : c.resolve owner name = .ok t) :
    c.Knows t ∧ ∀ d, t.declaration = some d → c.find? name = some d := by
  unfold resolve at h
  split at h
  · next hd =>
    obtain ⟨coercion, hcoercion, h⟩ := ok_of_bind h
    obtain rfl := Except.ok.inj h
    exact ⟨.declared (mem_of_find? hd).1 hcoercion, fun _ heq => Option.some.inj heq ▸ hd⟩
  · next hb =>
    obtain rfl := Except.ok.inj h
    exact ⟨.builtin (List.mem_of_find?_eq_some hb), nofun⟩
  · cases h

/-! ## Shapes -/

def Sized (c : Catalog) (shapes : Shapes) : Prop :=
  ∀ name shape, shapes[name]? = some shape →
    shape.name = name ∧ ∃ d, c.find? name = some d ∧ shape.size = d.size

theorem sized_insert {shapes : Shapes} (hs : c.Sized shapes) {name : String}
    (hd : c.find? name = some d) (members : List Member) :
    c.Sized (shapes.insert name
      (.mk name d.size d.isUnion d.flexible.isSome members)) := by
  intro other shape hget
  rw [Std.TreeMap.getElem?_insert] at hget
  split at hget
  · next heq =>
    obtain rfl := Std.LawfulEqCmp.eq_of_compare heq
    obtain rfl := Option.some.inj hget
    exact ⟨rfl, d, hd, rfl⟩
  · exact hs other shape hget

theorem sized_membersFor {shapeOf : String → Shapes → Except RegistryError (Shape × Shapes)}
    (hshape : ∀ name shapes shape shapes', c.Sized shapes →
      shapeOf name shapes = .ok (shape, shapes') → c.Sized shapes')
    {upper : Field → Shape → Option Nat} {fields : List Field} {shapes shapes' : Shapes}
    {members : List Member} (hs : c.Sized shapes)
    (h : membersFor shapeOf upper fields shapes = .ok (members, shapes')) : c.Sized shapes' := by
  induction fields generalizing shapes members with
  | nil =>
      obtain ⟨_, rfl⟩ := Prod.mk.inj (Except.ok.inj h)
      exact hs
  | cons f fields ih =>
      obtain ⟨⟨_, between⟩, hfirst, h⟩ := ok_of_bind h
      obtain ⟨⟨_, last⟩, hrest, h⟩ := ok_of_bind h
      obtain ⟨_, rfl⟩ := Prod.mk.inj (Except.ok.inj h)
      exact ih (hshape _ _ _ _ hs hfirst) hrest

theorem sized_shapeOf {depth : Nat} {outer : List String} {owner name : String}
    {shapes shapes' : Shapes} {shape : Shape} (hs : c.Sized shapes)
    (h : c.shapeOf depth outer owner name shapes = .ok (shape, shapes')) : c.Sized shapes' := by
  induction depth generalizing outer owner name shapes shape shapes' with
  | zero => cases h
  | succ depth ih =>
      rw [shapeOf] at h
      split at h
      · obtain ⟨_, rfl⟩ := Prod.mk.inj (Except.ok.inj h)
        exact hs
      · obtain ⟨target, hresolve, h⟩ := ok_of_bind h
        split at h
        · obtain ⟨_, rfl⟩ := Prod.mk.inj (Except.ok.inj h)
          exact hs
        · next d hd =>
          dsimp only at h
          split at h
          · cases h
          · obtain ⟨⟨_, between⟩, hfields, h⟩ := ok_of_bind h
            obtain ⟨⟨_, last⟩, hflexible, h⟩ := ok_of_bind h
            obtain ⟨_, rfl⟩ := Prod.mk.inj (Except.ok.inj h)
            have hbetween := sized_membersFor (fun _ _ _ _ => ih) hs hfields
            have hlast := sized_membersFor (fun _ _ _ _ => ih) hbetween hflexible
            exact sized_insert hlast ((knows_of_resolve hresolve).2 d hd) _

theorem sized_shapes {shapes : Shapes} (h : c.shapes = .ok shapes) : c.Sized shapes := by
  refine foldlM_preserves (fun first d next hfirst hstep => ?_) (fun _ _ hget => ?_) h
  · obtain ⟨⟨_, _⟩, hshape, hstep⟩ := ok_of_bind hstep
    obtain rfl := Except.ok.inj hstep
    exact sized_shapeOf hfirst hshape
  · simp at hget

/-! ## Records -/

theorem recordOf_eq_ok {shapes : Shapes} {record : TypeRecord}
    (h : c.recordOf shapes d = .ok record) :
    ∃ coercion out flexible out' table shape, c.coercionOf d = .ok coercion ∧
      c.layFields d.name (mostDepth + 1) d 0
        (TypeRecord.selfEntries (d.typeHash c.hasher) coercion).toArray = .ok out ∧
      c.layFlexible d out = .ok (flexible, out') ∧
      Layout.Table.build? (d.tableHash c.hasher) (firstOfEach out') = some table ∧
      shapes[d.name]? = some shape ∧
      record = .ofParts (d.typeHash c.hasher) shape flexible table coercion := by
  obtain ⟨coercion, hcoercion, h⟩ := ok_of_bind h
  obtain ⟨out, hout, h⟩ := ok_of_bind h
  obtain ⟨⟨flexible, out'⟩, hflexible, h⟩ := ok_of_bind h
  dsimp only at h
  split at h
  · cases h
  · split at h
    · cases h
    · cases h
    · next table shape htable hshape =>
      exact ⟨coercion, out, flexible, out', table, shape, hcoercion, hout, hflexible, htable,
        hshape, (Except.ok.inj h).symm⟩

end Catalog

/-! ## Registration -/

namespace Registry

/-- No two types share a hash or a name, and none has the hash of no type or of free memory. -/
structure Sound (r : Registry) : Prop where
  hashes : (r.records.map (·.hash)).Nodup
  names : (r.records.map (·.name)).Nodup
  real : ∀ record ∈ r.records, record.hash ≠ .nil ∧ record.hash ≠ .free

theorem sound_builtins (hasher : NameHasher) : (builtins hasher).Sound := by
  have hhashes : (builtins hasher).records.map (·.hash) = Builtin.all.map (Builtin.hash hasher) :=
    List.map_map
  have hnames : (builtins hasher).records.map (·.name) = Builtin.all.map Builtin.name := List.map_map
  refine ⟨?_, ?_, fun record hr => ?_⟩
  · rw [hhashes]
    exact (List.nodup_cons.mp hasher.distinct).2
  · rw [hnames]
    decide
  · obtain ⟨b, hb, rfl⟩ := List.mem_map.mp hr
    exact ⟨Builtin.hash_ne_nil hasher hb, Builtin.hash_ne_free hasher hb⟩

theorem insert_eq_ok {r r' : Registry} {record : TypeRecord} (h : r.insert record = .ok r') :
    r'.records = r.records ++ [record] ∧ (r.Sound → r'.Sound) := by
  unfold insert at h
  split at h
  · cases h
  · next hhash =>
    split at h
    · cases h
    · next hname =>
      obtain rfl := Except.ok.inj h
      simp only [not_or, List.any_eq_true, decide_eq_true_eq, not_exists, not_and] at hhash hname
      refine ⟨rfl, fun hs => ⟨?_, ?_, fun x hx => ?_⟩⟩
      · exact nodup_concat hs.hashes hhash.2.2
      · exact nodup_concat hs.names hname
      · rcases List.mem_append.mp hx with hold | hnew
        · exact hs.real x hold
        · obtain rfl := List.mem_singleton.mp hnew
          exact ⟨hhash.1, hhash.2.1⟩

theorem records_foldlM_insert {records : List TypeRecord} {r r' : Registry}
    (h : records.foldlM insert r = .ok r') : r'.records = r.records ++ records := by
  induction records generalizing r with
  | nil =>
      obtain rfl := Except.ok.inj h
      exact (List.append_nil _).symm
  | cons record records ih =>
      rw [List.foldlM_cons] at h
      obtain ⟨next, hinsert, h⟩ := ok_of_bind h
      rw [ih h, (insert_eq_ok hinsert).1, List.append_assoc, List.singleton_append]

end Registry

namespace Catalog

variable {c : Catalog} {d : Declaration} {t : Target} {registry : Registry} {record : TypeRecord}

/-- What building a registry comes to: the records of the built-in types and behind them those of
the declarations. -/
structure Built (c : Catalog) (shapes : Shapes) (records : List TypeRecord) (registry : Registry) :
    Prop where
  found : c.shapes = .ok shapes
  sized : c.Sized shapes
  results : c.declarations.map (c.recordOf shapes) = records.map .ok
  records_eq : registry.records = (Registry.builtins c.hasher).records ++ records
  sound : registry.Sound

theorem build_eq_ok (h : c.build = .ok registry) :
    ∃ shapes records, c.Built shapes records registry := by
  obtain ⟨shapes, hshapes, h⟩ := ok_of_bind h
  obtain ⟨records, hrecords, h⟩ := ok_of_bind h
  refine ⟨shapes, records, hshapes, sized_shapes hshapes, map_eq_of_mapM hrecords,
    Registry.records_foldlM_insert h, ?_⟩
  exact foldlM_preserves (fun r x r' hr hx => (Registry.insert_eq_ok hx).2 hr)
    (Registry.sound_builtins c.hasher) h

structure Describes (t : Target) (record : TypeRecord) : Prop where
  hash_eq : record.hash = t.hash
  coercion_eq : record.coercion = t.coercion
  size_eq : record.size = t.size

theorem describes_builtin (hasher : NameHasher) (b : Builtin) :
    Describes ⟨b.hash hasher, b.size, b.coercion, none⟩ (b.record hasher) := ⟨rfl, rfl, rfl⟩

namespace Built

variable {shapes : Shapes} {records : List TypeRecord}

theorem find?_name (h : c.Built shapes records registry) (hd : d ∈ c.declarations) :
    c.find? d.name = some d := by
  have hname (d : Declaration) (record : TypeRecord) (hr : c.recordOf shapes d = .ok record) :
      record.name = d.name := by
    obtain ⟨_, _, _, _, _, shape, _, _, _, _, hshape, rfl⟩ := recordOf_eq_ok hr
    exact (h.sized _ _ hshape).1
  have hnodup := h.sound.names
  rw [h.records_eq, List.map_append, map_eq_of_results hname h.results] at hnodup
  exact find?_of_nodup (List.nodup_append.mp hnodup).2.1 hd

theorem describes (h : c.Built shapes records registry) (hd : d ∈ c.declarations)
    (hr : c.recordOf shapes d = .ok record) : ∃ coercion, c.coercionOf d = .ok coercion ∧
      Describes ⟨d.typeHash c.hasher, d.size, coercion, some d⟩ record := by
  obtain ⟨coercion, _, _, _, _, shape, hcoercion, _, _, _, hshape, rfl⟩ := recordOf_eq_ok hr
  obtain ⟨_, d', hd', hsize⟩ := h.sized _ _ hshape
  obtain rfl := Option.some.inj ((h.find?_name hd).symm.trans hd')
  exact ⟨coercion, hcoercion, rfl, rfl, hsize⟩

theorem recordOf_mem (h : c.Built shapes records registry) (hd : d ∈ c.declarations) :
    ∃ record ∈ registry.records, c.recordOf shapes d = .ok record := by
  have hmem : c.recordOf shapes d ∈ records.map .ok := h.results ▸ List.mem_map_of_mem hd
  obtain ⟨record, hrecord, heq⟩ := List.mem_map.mp hmem
  exact ⟨record, h.records_eq ▸ List.mem_append_right _ hrecord, heq.symm⟩

theorem builtin_mem (h : c.Built shapes records registry) {b : Builtin} (hb : b ∈ Builtin.all) :
    b.record c.hasher ∈ registry.records :=
  h.records_eq ▸ List.mem_append_left _ (List.mem_map_of_mem hb)

theorem find?_hash (h : c.Built shapes records registry) (hr : record ∈ registry.records) :
    registry.find? record.hash = some record := by
  rw [Registry.find?, if_neg (h.sound.real record hr).2]
  exact find?_of_nodup h.sound.hashes hr

theorem recordOf_of_find? (h : c.Built shapes records registry) (hd : d ∈ c.declarations)
    (hfind : registry.find? (d.typeHash c.hasher) = some record) : c.recordOf shapes d = .ok record := by
  obtain ⟨found, hmem, hrecord⟩ := h.recordOf_mem hd
  obtain ⟨_, _, hdescribes⟩ := h.describes hd hrecord
  have hsame := h.find?_hash hmem
  rw [hdescribes.hash_eq, hfind] at hsame
  rw [hrecord, Option.some.inj hsame]

theorem origin_of_mem (h : c.Built shapes records registry) (hr : record ∈ registry.records) :
    (∃ b ∈ Builtin.all, record = b.record c.hasher) ∨
      ∃ d ∈ c.declarations, c.recordOf shapes d = .ok record := by
  rw [h.records_eq] at hr
  rcases List.mem_append.mp hr with hbuiltin | hdeclared
  · obtain ⟨b, hb, rfl⟩ := List.mem_map.mp hbuiltin
    exact .inl ⟨b, hb, rfl⟩
  · have hmem : .ok record ∈ c.declarations.map (c.recordOf shapes) :=
      h.results ▸ List.mem_map_of_mem hdeclared
    exact .inr (List.mem_map.mp hmem)

theorem known_of_mem (h : c.Built shapes records registry) (hr : record ∈ registry.records) :
    ∃ t, c.Knows t ∧ Describes t record := by
  rcases h.origin_of_mem hr with ⟨b, hb, rfl⟩ | ⟨d, hd, hrecord⟩
  · exact ⟨_, .builtin hb, describes_builtin c.hasher b⟩
  · obtain ⟨coercion, hcoercion, hdescribes⟩ := h.describes hd hrecord
    exact ⟨_, .declared hd hcoercion, hdescribes⟩

theorem find?_of_knows (h : c.Built shapes records registry) (hk : c.Knows t) :
    ∃ record ∈ registry.records, registry.find? t.hash = some record ∧ Describes t record := by
  cases hk with
  | @builtin b listed =>
      have hmem := h.builtin_mem listed
      exact ⟨_, hmem, h.find?_hash hmem, describes_builtin c.hasher b⟩
  | @declared d coercion listed coerced =>
      obtain ⟨record, hmem, hrecord⟩ := h.recordOf_mem listed
      obtain ⟨coercion', hcoercion, hdescribes⟩ := h.describes listed hrecord
      obtain rfl := Except.ok.inj (coerced.symm.trans hcoercion)
      exact ⟨record, hmem, hdescribes.hash_eq ▸ h.find?_hash hmem, hdescribes⟩

theorem hash_real (h : c.Built shapes records registry) (hd : d ∈ c.declarations) :
    d.typeHash c.hasher ≠ .nil ∧ d.typeHash c.hasher ≠ .free := by
  obtain ⟨record, hmem, hrecord⟩ := h.recordOf_mem hd
  obtain ⟨_, _, hdescribes⟩ := h.describes hd hrecord
  have hhash : record.hash = d.typeHash c.hasher := hdescribes.hash_eq
  exact hhash ▸ h.sound.real record hmem

theorem coercion_ne_nil (h : c.Built shapes records registry) {coercion : TypeHash}
    (hc : c.coercionOf d = .ok (some coercion)) : coercion ≠ .nil := by
  unfold coercionOf at hc
  split at hc
  · have hshared := Except.ok.inj hc
    split at hshared
    · exact Option.some.inj hshared ▸ by decide
    · cases hshared
  · split at hc
    · next hfind =>
      exact Option.some.inj (Except.ok.inj hc) ▸ (h.hash_real (mem_of_find? hfind).1).1
    · next b _ hb =>
      have hmem := h.builtin_mem (List.mem_of_find?_eq_some hb)
      exact Option.some.inj (Except.ok.inj hc) ▸ (h.sound.real _ hmem).1
    · cases hc

/-- A free place of a table never passes for an object. -/
theorem hashes_ne_nil (h : c.Built shapes records registry) (hk : c.Knows t) :
    ∀ hash ∈ t.hashes, hash ≠ .nil := by
  cases hk with
  | @builtin b listed =>
      intro hash hmem
      rcases List.mem_cons.mp hmem with rfl | hcoercion
      · exact Builtin.hash_ne_nil c.hasher listed
      · exact fun hnil => Builtin.coercion_ne_nil b listed (Option.mem_toList.mp (hnil ▸ hcoercion))
  | @declared d coercion listed coerced =>
      intro hash hmem
      rcases List.mem_cons.mp hmem with rfl | hcoercion
      · exact (h.hash_real listed).1
      · have heq : coercion = some hash := Option.mem_toList.mp hcoercion
        exact h.coercion_ne_nil (heq ▸ coerced)

end Built

/-! ## Coercions -/

/-- A type of the hash `expected` is coerced to `coerced`. -/
def Coerces (c : Catalog) (expected coerced : TypeHash) : Prop :=
  ∃ t, c.Knows t ∧ t.hash = expected ∧ t.coercion = some coerced

theorem coerces_iff (built : c.build = .ok registry) {expected coerced : TypeHash} :
    c.Coerces expected coerced ↔ (registry.find? expected).bind (·.coercion) = some coerced := by
  obtain ⟨shapes, records, h⟩ := build_eq_ok built
  constructor
  · intro h
    rcases h with ⟨t, known, rfl, hcoerced⟩
    obtain ⟨record, _, hfind, hdescribes⟩ := h.find?_of_knows known
    rw [hfind, Option.bind_some, hdescribes.coercion_eq, hcoerced]
  · intro hbind
    obtain ⟨record, hfind, hcoerced⟩ := Option.bind_eq_some_iff.mp hbind
    by_cases hfree : expected = .free
    · rw [Registry.find?, if_pos hfree] at hfind
      cases Option.some.inj hfind ▸ hcoerced
    · have hhash := Registry.hash_of_find? hfind
      rw [Registry.find?, if_neg hfree] at hfind
      obtain ⟨t, known, hdescribes⟩ := h.known_of_mem (List.mem_of_find?_eq_some hfind)
      exact ⟨t, known, hdescribes.hash_eq.symm.trans hhash, hdescribes.coercion_eq ▸ hcoerced⟩

end Catalog

end TypedHeap
