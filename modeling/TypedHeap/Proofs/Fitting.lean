import TypedHeap.Proofs.Flexible
import TypedHeap.Proofs.Room

/-! # Fields that fit

A registry is built only if every field ends within the type that declares it. Level by level, then,
everything that a type contains lies in it, and everything within the flexible array lies in the one
element of it that counts. So a check in an array of structures never reaches beyond the structure,
unless it allows the whole of the array.
-/

namespace TypedHeap

open Layout (Entry)

/-- The field that the entry belongs to reaches over its offset, and lies in the bytes from `start`
to `finish`. -/
structure Layout.Entry.LiesIn (e : Entry) (start finish : Nat) : Prop where
  lower_le : e.reach.lower ≤ 0
  le_upper : 0 ≤ e.reach.upper
  start_le : (start : Int) ≤ e.offset + e.reach.lower
  le_finish : e.offset + e.reach.upper ≤ (finish : Int)

/-- All bytes that the bounds allow are among those from `start` to `finish`. -/
def Bounds.Inside (b : Bounds) (start finish : Nat) : Prop :=
  ∀ a, b.lower ≤ a → a < b.upper → start ≤ a ∧ a < finish

theorem Bounds.inside_emptyAt (address start finish : Nat) :
    (emptyAt address).Inside start finish := by
  intro a hlower hupper
  simp only [emptyAt] at hlower hupper
  omega

theorem Bounds.mem_of_intersect {b c : Bounds} {a : Nat} (hlower : (b.intersect c).lower ≤ a)
    (hupper : a < (b.intersect c).upper) : (b.lower ≤ a ∧ a < b.upper) ∧ a < c.upper := by
  unfold intersect at hlower hupper
  by_cases hordered : max b.lower c.lower ≤ min b.upper c.upper
  · simp only [if_pos hordered] at hlower hupper
    omega
  · simp only [if_neg hordered, emptyAt] at hlower hupper
    omega

theorem Bounds.inside_intersect_around {address start finish : Nat} {reach : Reach} {b : Bounds}
    (hlower : (start : Int) ≤ address + reach.lower)
    (hupper : address + reach.upper ≤ (finish : Int)) (hlast : b.upper ≤ Word.last) :
    ((around address reach).intersect b).Inside start finish := by
  intro a hlow hhigh
  have hmem := mem_of_intersect hlow hhigh
  simp only [around, clampedAt] at hmem
  omega

namespace Catalog

variable {c : Catalog} {d : Declaration} {t : Target} {registry : Registry} {shapes : Shapes}
  {records : List TypeRecord}

/-- Each field ends within the type that declares it. -/
def FieldsFit (c : Catalog) : Prop :=
  ∀ d ∈ c.declarations, ∀ f ∈ d.fields, ∀ t, c.resolve d.name f.typeName = .ok t →
    f.offset + f.count * t.size ≤ d.size

theorem field_fits_of_layFields {top : String} {depth base : Nat} {out out' : Array Entry}
    (h : c.layFields top depth d base out = .ok out') {f : Field} (hf : f ∈ d.fields)
    (named : c.resolve d.name f.typeName = .ok t) : f.offset + f.count * t.size ≤ d.size := by
  cases depth with
  | zero => cases h
  | succ depth =>
      obtain ⟨_, _, hstep⟩ := step_of_foldlM h hf
      obtain ⟨t', named', hstep⟩ := ok_of_bind hstep
      obtain rfl := Except.ok.inj (named.symm.trans named')
      obtain ⟨finish, hfinish, hstep⟩ := ok_of_bind hstep
      obtain rfl := eq_of_elementsEnd? hfinish
      split at hstep
      · cases hstep
      · omega

theorem Built.fieldsFit (h : c.Built shapes records registry) : c.FieldsFit := by
  intro d hd f hf t named
  obtain ⟨record, _, hrecord⟩ := h.recordOf_mem hd
  obtain ⟨_, _, _, _, _, _, _, hout, _⟩ := recordOf_eq_ok hrecord
  exact field_fits_of_layFields hout hf named

theorem Knows.size_eq (known : c.Knows t) (declared : t.declaration = some d) :
    d ∈ c.declarations ∧ t.size = d.size := by
  cases known with
  | builtin => cases declared
  | declared listed =>
      obtain rfl := Option.some.inj declared
      exact ⟨listed, rfl⟩

theorem Places.finish_le (fit : c.FieldsFit) (hd : d ∈ c.declarations) {p : Part}
    (h : c.Places d p) : p.finish ≤ d.size := by
  -- on the placement: the fields of an element end within the element, and that within its field
  induction h with
  | @element d f i k target field named bound =>
      exact fit d hd f (List.mem_of_getElem? field) target named
  | @within d child f i k target p field named bound declared inner ih =>
      obtain ⟨hchild, hsize⟩ := (knows_of_resolve named).1.size_eq declared
      have hinner := ih hchild
      have hfield := fit d hd f (List.mem_of_getElem? field) target named
      have hlast : (k + 1) * target.size ≤ f.count * target.size := Nat.mul_le_mul_right _ bound
      rw [Nat.succ_mul] at hlast
      simp only [Part.under]
      omega

theorem Holds.room (fit : c.FieldsFit) (known : c.Knows t) {p : Part} (h : c.Holds t p) :
    p.start ≤ p.offset ∧ p.offset ≤ p.finish ∧ p.finish ≤ t.size := by
  obtain ⟨d, declared, hplaces⟩ := h
  obtain ⟨hd, hsize⟩ := known.size_eq declared
  have hroom := hplaces.room
  have hfinish := hplaces.finish_le fit hd
  omega

theorem liesIn_ofPart (fit : c.FieldsFit) (known : c.Knows t) {p : Part} (h : c.Holds t p)
    (hash : TypeHash) : ((Occurrence.ofPart p).entry hash).LiesIn 0 t.size := by
  have hroom := h.room fit known
  constructor <;> simp only [Occurrence.entry, Occurrence.ofPart, Occurrence.reach] <;> omega

theorem liesIn_within (fit : c.FieldsFit) (known : c.Knows t) {p : Part} (h : c.Holds t p)
    (i k base : Nat) (hash : TypeHash) :
    ((Occurrence.ofPart (p.under i k base)).entry hash).LiesIn base (base + t.size) := by
  have hroom := h.room fit known
  constructor
  all_goals
    simp only [Occurrence.entry, Occurrence.ofPart, Occurrence.reach, Part.under]
    omega

variable {record : TypeRecord} {e : Entry} {cache : Cache.Chain} {expected : TypeHash}
  {offset : Nat}

/-- A check of a type without a flexible array finds an entry at the offset, which has the reach of
wholes or lies in the type. -/
theorem liesIn_of_entryFor? (built : c.build = .ok registry) (known : c.Knows t) (rigid : t.Rigid)
    (hfind : registry.find? t.hash = some record)
    (he : registry.entryFor? record cache expected offset = some e) :
    e.offset = offset ∧ (e.reach = .wide ∨ e.LiesIn 0 t.size) := by
  obtain ⟨shapes, records, h⟩ := build_eq_ok built
  obtain ⟨record', os, hfind', hos, htabulates⟩ := tabulates_of_knows built known
  obtain rfl := Option.some.inj (hfind.symm.trans hfind')
  obtain ⟨hash, o, hpicks, rfl⟩ := htabulates.picks_of_entryFor? hos built he
  refine ⟨hpicks.foremost.occurs.offset_eq, ?_⟩
  cases hpicks.foremost.occurs.contained with
  | whole => exact .inl rfl
  | part held => exact .inr (liesIn_ofPart h.fieldsFit known held hash)
  | flexible declared last => cases (rigid _ declared).symm.trans last
  | within declared last => cases (rigid _ declared).symm.trans last

/-- The entry is that of a field, at any depth, of the type that the record is of. -/
def FromField (c : Catalog) (record : TypeRecord) (e : Entry) : Prop :=
  ∃ t p, c.Knows t ∧ Describes t record ∧ c.Holds t p ∧ e = (Occurrence.ofPart p).entry e.hash

/-- The entry is that of a field of the elements of the flexible array of the type. -/
def FromFlexible (c : Catalog) (record : TypeRecord) (e : Entry) : Prop :=
  ∃ t d f target p, c.Knows t ∧ Describes t record ∧ t.declaration = some d ∧
    d.flexible = some f ∧ c.resolve d.name f.typeName = .ok target ∧ c.Holds target p ∧
      e = (Occurrence.ofPart (p.under d.fields.length 0 f.offset)).entry e.hash

theorem source_of_entry (built : c.build = .ok registry) (hr : record ∈ registry.records)
    (he : e ∈ record.table.entries) :
    e.reach = .wide ∨ c.FromField record e ∨ c.FromFlexible record e := by
  obtain ⟨shapes, records, h⟩ := build_eq_ok built
  obtain ⟨t, known, hdescribes⟩ := h.known_of_mem hr
  obtain ⟨record', os, hfind, hos, htabulates⟩ := tabulates_of_knows built known
  rw [← hdescribes.hash_eq, h.find?_hash hr] at hfind
  obtain rfl := Option.some.inj hfind
  obtain ⟨o, ho, heq⟩ := htabulates.foremost_of_mem hos he
  rw [heq]
  cases ho.occurs.contained with
  | whole => exact .inl rfl
  | part held => exact .inr (.inl ⟨t, _, known, hdescribes, held, rfl⟩)
  | flexible => exact .inl rfl
  | within declared last named inner =>
      exact .inr (.inr ⟨t, _, _, _, _, known, hdescribes, declared, last, named, inner, rfl⟩)

theorem FromField.liesIn (h : c.FromField record e) (fit : c.FieldsFit) :
    e.LiesIn 0 record.size := by
  obtain ⟨t, p, known, hdescribes, held, heq⟩ := h
  rw [heq, hdescribes.size_eq]
  exact liesIn_ofPart fit known held e.hash

theorem FromFlexible.liesIn (h : c.FromFlexible record e) (fit : c.FieldsFit)
    (built : c.build = .ok registry) (hr : record ∈ registry.records) :
    e.LiesIn record.elementStart (record.elementStart + record.elementSize) := by
  obtain ⟨t, d, f, target, p, known, hdescribes, declared, last, named, inner, heq⟩ := h
  obtain ⟨record', _, hfind, _, _, hstart, hsize, _⟩ :=
    record_of_flexible built known declared last named
  obtain ⟨shapes, records, hbuilt⟩ := build_eq_ok built
  rw [← hdescribes.hash_eq, hbuilt.find?_hash hr] at hfind
  obtain rfl := Option.some.inj hfind
  rw [heq, hstart, hsize]
  exact liesIn_within fit (knows_of_resolve named).1 inner d.fields.length 0 f.offset e.hash

end Catalog

theorem Catalog.Target.div_mul_add_fold (t : Target) (raw : Nat) :
    raw / t.size * t.size + t.fold raw = raw := by
  unfold fold
  by_cases hzero : t.size = 0
  · rw [if_pos hzero, hzero, Nat.mul_zero, Nat.zero_add]
  · rw [if_neg hzero]
    exact Nat.div_add_mod' raw t.size

namespace Guard

open Catalog (Target)

variable {g : Guard} {c : Catalog} {t : Target} {s : Slot} {header : Header} {p : Pointer}
  {expected : TypeHash} {record : TypeRecord} {raw : Nat}

/-- The entry that decides a check in consecutive objects has the reach of wholes, or the check
answers and allows nothing outside the object that the address lies in. -/
theorem Stores.checked_inside (hs : g.Stores s header t) (hr : g.Reachable)
    (built : c.build = .ok g.registry) (known : c.Knows t) (rigid : t.Rigid)
    (hfind : g.registry.find? t.hash = some record) (haddress : p.address = s.user + raw)
    (hin : p.address < s.finish) (hexpected : expected ≠ .int8) :
    (∃ offset e, record.fold raw = .ok offset ∧
      g.registry.entryFor? record (g.heap.chainOf header) expected offset = some e ∧
      e.reach = .wide) ∨
    ∃ b, (g.checkPointer p expected).1 = .ok b ∧
      b.Inside (s.user + raw / t.size * t.size) (s.user + (raw / t.size * t.size + t.size)) := by
  rw [checkPointer_bounds]
  by_cases hfresh : p.isStale header.epoch = true
  · obtain ⟨r, hslot⟩ := hs.slot
    have hres := hr.kept.framed.resolve?_of_carved (hr.kept.carved_of_live hslot hs.live)
      (by omega : s.user ≤ p.address) hin
    rw [judge_of_live hr.kept hslot hres hs.live, if_pos hfresh]
    exact .inr ⟨_, rfl, Bounds.inside_emptyAt _ _ _⟩
  · rw [Bool.not_eq_true] at hfresh
    obtain ⟨_, hlast, hreach⟩ := hs.spans hr
    obtain ⟨record', _, hfind', _, _, hstart, hstride, hsize⟩ :=
      Catalog.record_of_rigid built known rigid
    obtain rfl := Option.some.inj (hfind.symm.trans hfind')
    have hraw : raw < 2 ^ 31 := by omega
    have hfold := TypeRecord.fold_of_stride hstart hstride hsize hraw
    rw [hs.judge_ofOffset hr hfind haddress hin hfresh hexpected hfold]
    rcases Verdict.ofOffset_cases g.registry s header.size (g.heap.chainOf header) record p.address
      expected (t.fold raw) with ⟨e, he, _, hbounds⟩ | ⟨_, _, hbounds⟩
    · obtain ⟨hoffset, hwide | hlies⟩ := Catalog.liesIn_of_entryFor? built known rigid hfind he
      · exact .inl ⟨_, e, hfold, he, hwide⟩
      · -- the entry is for an offset in the first object; the address lies as far into its own
        have hsplit := t.div_mul_add_fold raw
        have hstart := hlies.start_le
        have hfinish := hlies.le_finish
        have hobject : (s.object header.size).upper ≤ Word.last := by
          simp only [Slot.object]
          omega
        exact .inr ⟨_, hbounds, Bounds.inside_intersect_around (by omega) (by omega) hobject⟩
    · exact .inr ⟨_, hbounds, Bounds.inside_emptyAt _ _ _⟩

/-- An entry that does not have the reach of wholes lies in the type if it is that of a field, and
in the one element of the flexible array if it is that of a field in there. A check in an array of
structures that have no flexible array, other than one for bytes, then allows nothing outside the
structure that the address lies in, unless an entry with the reach of wholes decides it. -/
theorem entries_within_elements {registry : Registry} (built : c.build = .ok registry) :
    (∀ hash record, registry.find? hash = some record → ∀ e ∈ record.table.entries,
      (e.reach = .wide ∨ c.FromField record e ∨ c.FromFlexible record e) ∧
      (c.FromField record e → e.LiesIn 0 record.size) ∧
      (c.FromFlexible record e →
        e.LiesIn record.elementStart (record.elementStart + record.elementSize))) ∧
    ∀ t record, c.Knows t → t.Rigid → registry.find? t.hash = some record →
      ∀ g : Guard, g.Reachable → g.registry = registry → ∀ s header, g.Stores s header t →
        ∀ p raw, p.address = s.user + raw → p.address < s.finish → ∀ expected ≠ .int8,
          (∃ offset e, record.fold raw = .ok offset ∧
            registry.entryFor? record (g.heap.chainOf header) expected offset = some e ∧
            e.reach = .wide) ∨
          ∃ b, (g.checkPointer p expected).1 = .ok b ∧
            b.Inside (s.user + raw / t.size * t.size)
              (s.user + (raw / t.size * t.size + t.size)) := by
  obtain ⟨shapes, records, h⟩ := Catalog.build_eq_ok built
  refine ⟨fun hash record hfind e he => ?_, ?_⟩
  · rcases Registry.mem_of_find? hfind with rfl | hr
    · exact absurd he List.not_mem_nil
    · exact ⟨Catalog.source_of_entry built hr he, fun hfrom => hfrom.liesIn h.fieldsFit,
        fun hfrom => hfrom.liesIn h.fieldsFit built hr⟩
  · rintro t record known rigid hfind g hr rfl s header hs p raw haddress hin expected hexpected
    exact hs.checked_inside hr built known rigid hfind haddress hin hexpected

/-- A check in the second of two structures stays in it. -/
theorem filled_entries_within :
    Catalog.nested.build = .ok filled.registry ∧
      (∀ record, filled.registry.find? Catalog.outerType.hash = some record →
        ∀ e ∈ record.table.entries, Catalog.nested.FromField record e → e.LiesIn 0 record.size) ∧
      ∃ b, (filled.checkPointer (.untracked 0x700068) (.ofName NameHasher.spread "int32_t")).1 =
        .ok b ∧ b.Inside 0x700050 0x700070 := by
  obtain ⟨hentries, hchecks⟩ := entries_within_elements filled_build
  refine ⟨filled_build, fun record hfind e he => (hentries _ record hfind e he).2.1, ?_⟩
  obtain ⟨header, hs⟩ := reachable_filled.stores (t := Catalog.outerType) (a := 0x700030)
    (s := ⟨6, 0x700000, 112⟩) (by decide +kernel) (by decide +kernel)
  obtain ⟨record, _, hfind, _⟩ := Catalog.tabulates_of_knows filled_build Catalog.nested_knows
  have hexpected : TypeHash.ofName NameHasher.spread "int32_t" ≠ .int8 := by decide +kernel
  have hcheck := hchecks Catalog.outerType record Catalog.nested_knows Catalog.rigid_outerType hfind
    filled reachable_filled rfl _ header hs (.untracked 0x700068) 56 rfl (by decide) _ hexpected
  rcases hcheck with ⟨offset, e, hfold, he, hwide⟩ | hinside
  · have hreach : ((filled.heap.live? ⟨6, 0x700000, 112⟩).bind fun header =>
        (filled.registry.find? Catalog.outerType.hash).bind fun record =>
          (record.fold 56).toOption.bind fun offset =>
            (filled.registry.entryFor? record (filled.heap.chainOf header)
              (.ofName NameHasher.spread "int32_t") offset).map (·.reach)) = some ⟨0, 8⟩ := by
      decide +kernel
    rw [hs.live, hfind, Option.bind_some, Option.bind_some, hfold, Except.toOption,
      Option.bind_some, he, Option.map_some, hwide] at hreach
    cases hreach
  · exact hinside

end Guard

namespace Catalog

def label : Declaration :=
  ((Declaration.ofSize "struct label" 8).withField "id" "int32_t" 0).withArray "text" "int8_t" 4 4

def labelType : Target := ⟨label.typeHash NameHasher.spread, 8, none, some label⟩

def labels : Catalog := ⟨.spread, [label]⟩

def labelRegistry : Registry := labels.build.toOption.get (by decide +kernel)

theorem labels_build : labels.build = .ok labelRegistry := ok_get (by decide +kernel)

theorem labels_knows : labels.Knows labelType := .declared List.mem_cons_self rfl

theorem rigid_labelType : labelType.Rigid := by
  rintro d ⟨⟩
  rfl

end Catalog

namespace Guard

open Catalog (labelType labels labelRegistry)

def blank : Guard :=
  (create ⟨false, false, false, false, 20, false⟩ labelRegistry 0x100000
    fun _ => 0).toOption.get (by decide +kernel)

theorem created_blank : create ⟨false, false, false, false, 20, false⟩ labelRegistry 0x100000
    (fun _ => 0) = .ok blank := ok_get (by decide +kernel)

def labelled : Guard :=
  blank.perform (.allocate 16 (.ofName NameHasher.spread "struct label") .opening)

theorem run_labelled :
    blank.Run [.allocate 16 (.ofName NameHasher.spread "struct label") .opening] labelled :=
  .step (by decide +kernel) (by decide +kernel) (.done labelled)

theorem reachable_labelled : labelled.Reachable :=
  .of created_blank (by decide +kernel) run_labelled

/-- A check for bytes consults no entry: at the text of the first label it allows the second one. -/
theorem label_bytes_unconfined :
    labels.build = .ok labelRegistry ∧ labels.Knows labelType ∧ labelType.Rigid ∧
      labelled.Reachable ∧ labelled.registry = labelRegistry ∧
      (∃ header, labelled.Stores ⟨3, 0x400000, 64⟩ header labelType) ∧
      ((labelRegistry.find? labelType.hash).bind fun record =>
        (record.fold 4).toOption.bind fun offset =>
          (record.lookup .int8 offset).found?.map (·.reach)) = some ⟨0, 4⟩ ∧
      (labelled.checkPointer (.untracked 0x400034) .int8).1 = .ok ⟨0x400030, 0x400040⟩ ∧
      ¬ (⟨0x400030, 0x400040⟩ : Bounds).Inside 0x400030 0x400038 := by
  have hstores := reachable_labelled.stores (t := labelType) (a := 0x400030)
    (s := ⟨3, 0x400000, 64⟩) (by decide +kernel) (by decide +kernel)
  have hregistry : labelled.registry = labelRegistry := by
    rw [run_labelled.registry_eq (create_kept created_blank).1, (create_kept created_blank).2.1]
  refine ⟨Catalog.labels_build, Catalog.labels_knows, Catalog.rigid_labelType, reachable_labelled,
    hregistry, hstores, by decide +kernel, by decide +kernel, fun hinside => ?_⟩
  have hbeyond := hinside 0x400038 (by decide) (by decide)
  omega

end Guard

end TypedHeap
