import TypedHeap.Layout.Table

/-! # Searching a layout table

A table finds exactly the entries it was built from. The places in front of an entry among its
probes are taken, so the search for it does not stop early, and no two entries are for the same
type and offset, so it does not stop at another one.
-/

namespace TypedHeap.Layout

def Lookup.found? : Lookup → Option Entry
  | .hit _ e => some e
  | _ => none

theorem Lookup.found?_eq_some_iff {l : Lookup} {e : Entry} :
    l.found? = some e ↔ ∃ place, l = .hit place e := by
  cases l <;> simp [found?]

namespace Table

variable {seed : TypeHash} {slots slots' : Array Entry} {es : List Entry} {e : Entry}

/-- `e` stands in one of its places, and those in front of it are taken. -/
def Stands (seed : TypeHash) (slots : Array Entry) (e : Entry) : Prop :=
  ∃ before place after, probesFor seed e.hash e.offset slots.size = before ++ place :: after ∧
    at? slots place = e ∧ ∀ q ∈ before, (at? slots q).isEmpty = false

/-- The places hold the entries `es` and no other. -/
structure Filled (seed : TypeHash) (slots : Array Entry) (es : List Entry) : Prop where
  size_pos : 0 < slots.size
  full : ∀ e ∈ es, e.isEmpty = false
  stands : ∀ e ∈ es, Stands seed slots e
  only (place : Nat) : (at? slots place).isEmpty = false → at? slots place ∈ es

theorem lt_of_mem_probesFor {hash : TypeHash} {offset capacity place : Nat} (hpos : 0 < capacity)
    (h : place ∈ probesFor seed hash offset capacity) : place < capacity := by
  obtain ⟨i, _, rfl⟩ := List.mem_map.mp h
  exact Nat.mod_lt _ hpos

theorem at?_set {place : Nat} (hplace : place < slots.size) (e : Entry) (q : Nat) :
    at? (slots.setIfInBounds place e) q = if place = q then e else at? slots q := by
  simp only [at?, Array.getD_eq_getD_getElem?, Array.getElem?_setIfInBounds]
  by_cases heq : place = q
  · subst heq
    simp [hplace]
  · simp [heq]

theorem at?_replicate (n place : Nat) : at? (Array.replicate n .empty) place = .empty := by
  simp only [at?, Array.getD_eq_getD_getElem?, Array.getElem?_replicate]
  split <;> rfl

/-- An entry put in takes a free place, and all others stay. -/
theorem place?_filled (hf : Filled seed slots es) (hne : e.hash ≠ .nil)
    (hp : place? seed slots e = some slots') : Filled seed slots' (es ++ [e]) := by
  obtain ⟨place, hfind, rfl⟩ := Option.map_eq_some_iff.mp hp
  obtain ⟨hempty, before, after, hprobes, hbefore⟩ := List.find?_eq_some_iff_append.mp hfind
  have hlt : place < slots.size := by
    apply lt_of_mem_probesFor hf.size_pos
    rw [hprobes]
    simp
  have hfull : e.isEmpty = false := by simpa [Entry.isEmpty] using hne
  have hsize : (slots.setIfInBounds place e).size = slots.size := Array.size_setIfInBounds
  -- the place was free, so the places that are taken stay as they are
  have htaken {q : Nat} (hq : (at? slots q).isEmpty = false) :
      at? (slots.setIfInBounds place e) q = at? slots q := by
    rw [at?_set hlt, if_neg]
    intro heq
    subst heq
    exact nomatch hempty.symm.trans hq
  refine ⟨hsize ▸ hf.size_pos, fun x hx => ?_, fun x hx => ?_, fun q hq => ?_⟩
  · rcases List.mem_append.mp hx with hold | hnew
    · exact hf.full x hold
    · exact List.mem_singleton.mp hnew ▸ hfull
  · rcases List.mem_append.mp hx with hold | hnew
    · obtain ⟨front, q, back, hsplit, hat, hfront⟩ := hf.stands x hold
      have hq : (at? slots q).isEmpty = false := hat ▸ hf.full x hold
      refine ⟨front, q, back, by rw [hsize]; exact hsplit, (htaken hq).trans hat, fun b hb => ?_⟩
      rw [htaken (hfront b hb)]
      exact hfront b hb
    · obtain rfl := List.mem_singleton.mp hnew
      refine ⟨before, place, after, by rw [hsize]; exact hprobes, ?_, fun q hq => ?_⟩
      · rw [at?_set hlt, if_pos rfl]
      · have hfullq : (at? slots q).isEmpty = false := by simpa using hbefore q hq
        rw [htaken hfullq]
        exact hfullq
  · rw [at?_set hlt] at hq ⊢
    split at hq
    · next heq =>
      rw [if_pos heq]
      simp
    · next heq =>
      rw [if_neg heq]
      exact List.mem_append_left _ (hf.only q hq)

theorem fill?_filled {entries : List Entry} (hf : Filled seed slots es)
    (hne : ∀ e ∈ entries, e.hash ≠ .nil)
    (hfill : entries.foldlM (place? seed) slots = some slots') :
    Filled seed slots' (es ++ entries) := by
  induction entries generalizing slots es with
  | nil =>
      obtain rfl := Option.some.inj hfill
      rwa [List.append_nil]
  | cons e entries ih =>
      rw [List.foldlM_cons] at hfill
      obtain ⟨next, hplace, hrest⟩ := Option.bind_eq_some_iff.mp hfill
      have hnext := place?_filled hf (hne e List.mem_cons_self) hplace
      rw [← List.singleton_append, ← List.append_assoc]
      exact ih hnext (fun x hx => hne x (List.mem_cons_of_mem _ hx)) hrest

theorem filled_replicate (seed : TypeHash) {n : Nat} (hpos : 0 < n) :
    Filled seed (Array.replicate n .empty) [] := by
  refine ⟨by simpa using hpos, nofun, nofun, fun place h => ?_⟩
  rw [at?_replicate] at h
  exact absurd h (by decide)

theorem build?_filled {entries : List Entry} {t : Table} (hne : ∀ e ∈ entries, e.hash ≠ .nil)
    (hb : build? seed entries = some t) : t.seed = seed ∧ Filled seed t.slots entries := by
  obtain ⟨bits, _, hfill⟩ := List.exists_of_findSome?_eq_some hb
  split at hfill
  · obtain ⟨slots, hslots, rfl⟩ := Option.map_eq_some_iff.mp hfill
    exact ⟨rfl, fill?_filled (filled_replicate seed (Nat.two_pow_pos bits)) hne hslots⟩
  · cases hfill

/-! ## Searching -/

theorem search_isSome {before after : List Nat} {place offset : Nat} {hash : TypeHash}
    (hfull : ∀ q ∈ before, (at? slots q).isEmpty = false)
    (hfor : (at? slots place).isFor hash offset = true) :
    (search slots hash offset (before ++ place :: after)).found?.isSome := by
  induction before with
  | nil => simp [search, hfor, Lookup.found?]
  | cons q before ih =>
      simp only [List.cons_append, search, hfull q List.mem_cons_self, Bool.false_eq_true, if_false]
      split
      · rfl
      · exact ih fun b hb => hfull b (List.mem_cons_of_mem _ hb)

theorem search_eq_hit {hash : TypeHash} {offset place : Nat} {places : List Nat}
    (h : search slots hash offset places = .hit place e) :
    e.isFor hash offset = true ∧ at? slots place = e := by
  induction places with
  | nil => cases h
  | cons first places ih =>
      simp only [search] at h
      split at h
      · next hfor =>
        obtain ⟨rfl, rfl⟩ := Lookup.hit.inj h
        exact ⟨hfor, rfl⟩
      · split at h
        · cases h
        · exact ih h

theorem mem_of_search_eq_hit {hash : TypeHash} {offset place : Nat} {places : List Nat}
    (h : search slots hash offset places = .hit place e) : place ∈ places := by
  induction places with
  | nil => cases h
  | cons first places ih =>
      simp only [search] at h
      split at h
      · obtain ⟨rfl, _⟩ := Lookup.hit.inj h
        exact List.mem_cons_self
      · split at h
        · cases h
        · exact List.mem_cons_of_mem _ (ih h)

/-- An entry that is found stands at most `probeLimit` places from its key on. -/
theorem probe_of_lookup {t : Table} {hash : TypeHash} {offset place : Nat}
    (h : t.lookup hash offset = .hit place e) :
    ∃ i < probeLimit,
      place = ((probeKey t.seed hash offset.toUInt64).toNat + i) % t.capacity := by
  unfold lookup at h
  split at h
  · cases h
  · obtain ⟨i, hi, heq⟩ := List.mem_map.mp (mem_of_search_eq_hit h)
    exact ⟨i, List.mem_range.mp hi, heq.symm⟩

theorem lookup_eq_hit {t : Table} {hash : TypeHash} {offset place : Nat}
    (h : t.lookup hash offset = .hit place e) :
    at? t.slots place = e ∧ e.isEmpty = false ∧ e.isFor hash offset = true := by
  unfold lookup at h
  split at h
  · cases h
  · next hne =>
    obtain ⟨hfor, hat⟩ := search_eq_hit h
    obtain ⟨heq, _⟩ := Bool.and_eq_true_iff.mp hfor
    exact ⟨hat, by simpa [Entry.isEmpty, of_decide_eq_true heq] using hne, hfor⟩

theorem entry?_of_lookup {t : Table} {hash : TypeHash} {offset place : Nat}
    (h : t.lookup hash offset = .hit place e) : t.entry? place = some e := by
  obtain ⟨hat, hfull, _⟩ := lookup_eq_hit h
  rw [at?, Array.getD_eq_getD_getElem?] at hat
  cases hplace : t.slots[place]? with
  | none =>
      rw [hplace] at hat
      subst hat
      cases hfull
  | some other =>
      rw [hplace, Option.getD_some] at hat
      subst hat
      simp [hplace, hfull, entry?]

/-- No two entries are for the same type and offset. -/
def Distinct (es : List Entry) : Prop :=
  es.Pairwise fun a b => ∀ hash offset, a.isFor hash offset = true → b.isFor hash offset = false

theorem distinct_iff_nodup : Distinct es ↔ (es.map fun e => (e.offset, e.hash)).Nodup := by
  rw [List.Nodup, List.pairwise_map, Distinct]
  refine ⟨List.Pairwise.imp fun {a b} hab heq => ?_, List.Pairwise.imp fun {a b} hab => ?_⟩
  · obtain ⟨hoffset, hhash⟩ := Prod.mk.inj heq
    have hb := hab a.hash a.offset (by simp [Entry.isFor])
    simp [Entry.isFor, hoffset, hhash] at hb
  · intro hash offset ha
    obtain ⟨rfl, rfl⟩ : a.hash = hash ∧ a.offset = offset := by simpa [Entry.isFor] using ha
    rw [Bool.eq_false_iff]
    intro hb
    obtain ⟨hhash, hoffset⟩ : b.hash = a.hash ∧ b.offset = a.offset := by
      simpa [Entry.isFor] using hb
    exact hab (Prod.ext hoffset.symm hhash.symm)

theorem Distinct.eq_of_isFor {hash : TypeHash} {offset : Nat} {a b : Entry} (hd : Distinct es)
    (ha : a ∈ es) (hb : b ∈ es) (hfa : a.isFor hash offset = true)
    (hfb : b.isFor hash offset = true) : a = b := by
  induction es with
  | nil => cases ha
  | cons x es ih =>
      obtain ⟨hhead, htail⟩ := List.pairwise_cons.mp hd
      rcases List.mem_cons.mp ha with rfl | ha'
      · rcases List.mem_cons.mp hb with rfl | hb'
        · rfl
        · exact nomatch hfb.symm.trans (hhead b hb' hash offset hfa)
      · rcases List.mem_cons.mp hb with rfl | hb'
        · exact nomatch hfa.symm.trans (hhead a ha' hash offset hfb)
        · exact ih htail ha' hb'

theorem mem_of_lookup {t : Table} {hash : TypeHash} {offset : Nat}
    (hf : Filled seed t.slots es) (h : (t.lookup hash offset).found? = some e) :
    e ∈ es ∧ e.isFor hash offset = true := by
  obtain ⟨place, hhit⟩ := Lookup.found?_eq_some_iff.mp h
  obtain ⟨rfl, hfull, hfor⟩ := lookup_eq_hit hhit
  exact ⟨hf.only place hfull, hfor⟩

theorem lookup_of_mem {t : Table} {hash : TypeHash} {offset : Nat} (hseed : t.seed = seed)
    (hf : Filled seed t.slots es) (hd : Distinct es) (he : e ∈ es)
    (hfor : e.isFor hash offset = true) : (t.lookup hash offset).found? = some e := by
  obtain ⟨rfl, rfl⟩ : e.hash = hash ∧ e.offset = offset := by
    simpa [Entry.isFor] using hfor
  have hne : e.hash ≠ .nil := by simpa [Entry.isEmpty] using hf.full e he
  obtain ⟨before, place, after, hprobes, hat, hbefore⟩ := hf.stands e he
  have hsome : (t.lookup e.hash e.offset).found?.isSome := by
    rw [lookup, if_neg hne, hseed, capacity, hprobes]
    exact search_isSome hbefore (hat ▸ hfor)
  obtain ⟨other, hother⟩ := Option.isSome_iff_exists.mp hsome
  obtain ⟨hmem, hotherFor⟩ := mem_of_lookup hf hother
  rw [hother, hd.eq_of_isFor hmem he hotherFor hfor]

/-- A table built from entries finds the one for a type and offset, and none if there is none. -/
theorem lookup_build? {entries : List Entry} {t : Table} (hb : build? seed entries = some t)
    (hne : ∀ e ∈ entries, e.hash ≠ .nil) (hd : Distinct entries) (hash : TypeHash)
    (offset : Nat) : (t.lookup hash offset).found? = entries.find? (·.isFor hash offset) := by
  obtain ⟨hseed, hf⟩ := build?_filled hne hb
  cases hfind : entries.find? (·.isFor hash offset) with
  | some e =>
      have hfor := List.find?_some hfind
      exact lookup_of_mem hseed hf hd (List.mem_of_find?_eq_some hfind) hfor
  | none =>
      cases hfound : (t.lookup hash offset).found? with
      | none => rfl
      | some e =>
          obtain ⟨he, hfor⟩ := mem_of_lookup hf hfound
          exact absurd hfor (by simpa using List.find?_eq_none.mp hfind e he)

theorem mem_of_entry {entries : List Entry} {t : Table} (hb : build? seed entries = some t)
    (hne : ∀ e ∈ entries, e.hash ≠ .nil) {place : Nat} (h : t.entry? place = some e) :
    e ∈ entries := by
  obtain ⟨_, hf⟩ := build?_filled hne hb
  obtain ⟨hat, hfull⟩ := Option.filter_eq_some_iff.mp h
  have heq : at? t.slots place = e := by simp [at?, Array.getD_eq_getD_getElem?, hat]
  rw [← heq]
  apply hf.only place
  rw [heq]
  simpa using hfull

/-! ## The entries of a table -/

theorem filter_set_perm {α : Type} {p : α → Bool} {l : List α} {i : Nat} {x a : α}
    (hx : l[i]? = some x) (hpx : p x = false) (hpa : p a = true) :
    ((l.set i a).filter p).Perm (a :: l.filter p) := by
  obtain ⟨hi, rfl⟩ := List.getElem?_eq_some_iff.mp hx
  have hsplit : l = l.take i ++ l[i] :: l.drop (i + 1) := by
    rw [List.getElem_cons_drop, List.take_append_drop]
  have hold : l.filter p = (l.take i).filter p ++ (l.drop (i + 1)).filter p := by
    conv => lhs; rw [hsplit]
    rw [List.filter_append, List.filter_cons_of_neg (by simp [hpx])]
  rw [List.set_eq_take_append_cons_drop, if_pos hi, List.filter_append,
    List.filter_cons_of_pos hpa, hold]
  exact List.perm_middle

theorem place?_perm (hpos : 0 < slots.size) (hfull : e.isEmpty = false)
    (hp : place? seed slots e = some slots') :
    slots'.size = slots.size ∧
      (slots'.toList.filter (!·.isEmpty)).Perm (e :: slots.toList.filter (!·.isEmpty)) := by
  obtain ⟨place, hfind, rfl⟩ := Option.map_eq_some_iff.mp hp
  have hlt : place < slots.size := lt_of_mem_probesFor hpos (List.mem_of_find?_eq_some hfind)
  have hat : slots.toList[place]? = some (at? slots place) := by
    simp [at?, hlt]
  have hempty := List.find?_some hfind
  refine ⟨Array.size_setIfInBounds, ?_⟩
  rw [Array.toList_setIfInBounds]
  apply filter_set_perm hat
  · simpa using hempty
  · simp [hfull]

theorem fill?_perm {entries : List Entry} (hpos : 0 < slots.size)
    (hne : ∀ e ∈ entries, e.hash ≠ .nil)
    (hfill : entries.foldlM (place? seed) slots = some slots') :
    (slots'.toList.filter (!·.isEmpty)).Perm (entries ++ slots.toList.filter (!·.isEmpty)) := by
  induction entries generalizing slots with
  | nil =>
      obtain rfl := Option.some.inj hfill
      exact .refl _
  | cons e entries ih =>
      rw [List.foldlM_cons] at hfill
      obtain ⟨next, hplace, hrest⟩ := Option.bind_eq_some_iff.mp hfill
      have hfull : e.isEmpty = false := by simpa [Entry.isEmpty] using hne e List.mem_cons_self
      obtain ⟨hsize, hnext⟩ := place?_perm hpos hfull hplace
      have hothers : ∀ x ∈ entries, x.hash ≠ .nil := fun x hx => hne x (List.mem_cons_of_mem _ hx)
      have hlater := ih (hsize ▸ hpos) hothers hrest
      exact (hlater.trans (hnext.append_left entries)).trans List.perm_middle

/-- A table holds the entries it was built from, each of them once, and no other. -/
theorem entries_build?_perm {entries : List Entry} {t : Table}
    (hb : build? seed entries = some t) (hne : ∀ e ∈ entries, e.hash ≠ .nil) :
    t.entries.Perm entries := by
  obtain ⟨bits, _, hfill⟩ := List.exists_of_findSome?_eq_some hb
  split at hfill
  · obtain ⟨slots, hslots, rfl⟩ := Option.map_eq_some_iff.mp hfill
    have hpos : 0 < (Array.replicate (2 ^ bits) Entry.empty).size := by
      rw [Array.size_replicate]
      exact Nat.two_pow_pos bits
    have hall := fill?_perm hpos hne hslots
    have hnone : (Array.replicate (2 ^ bits) Entry.empty).toList.filter (!·.isEmpty) = [] := by
      simp [Entry.isEmpty, Entry.empty]
    rwa [hnone, List.append_nil] at hall
  · cases hfill

theorem mem_entries_iff {t : Table} : e ∈ t.entries ↔ ∃ place, t.entry? place = some e := by
  simp only [entries, List.mem_filter, entry?, Option.filter_eq_some_iff]
  constructor
  · intro h
    obtain ⟨place, hplace⟩ := List.mem_iff_getElem?.mp h.1
    exact ⟨place, by simpa using hplace, h.2⟩
  · intro h
    rcases h with ⟨place, hplace, hfull⟩
    exact ⟨List.mem_iff_getElem?.mpr ⟨place, by simpa using hplace⟩, hfull⟩

theorem nodup_keys_build? {entries : List Entry} {t : Table} (hb : build? seed entries = some t)
    (hne : ∀ e ∈ entries, e.hash ≠ .nil) (hd : Distinct entries) :
    (t.entries.map fun e => (e.offset, e.hash)).Nodup :=
  ((entries_build?_perm hb hne).map _).nodup_iff.mpr (distinct_iff_nodup.mp hd)

end Table

end TypedHeap.Layout
