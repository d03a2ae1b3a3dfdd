import TypedHeap.Heap.Region
import TypedHeap.Proofs.ClassTable
import TypedHeap.Proofs.Division

/-! # Windows and their slots

The slots of a region tile its window from the start on. Slots are carved at multiples of the class
size only and never past the last whole one. Memory is open as far as the slots that are handed out; a
slot that was carved when it could not be opened is lost. Whatever the region hands out or takes back,
its window and its first slot stay where they are.
-/

namespace TypedHeap.Region

/-- A slot starts at `base`, whether or not it is whole or was ever handed out. -/
def Tiles (r : Region) (base : Nat) : Prop := r.start ≤ base ∧ r.size ∣ base - r.start

/-- The slot at `base` is not one of those that were never touched. -/
def Carves (r : Region) (base : Nat) : Prop := r.Tiles base ∧ r.first ≤ base ∧ base < r.next

def Opens (r : Region) (base : Nat) : Prop := r.openFrom ≤ base ∧ base + r.size ≤ r.openTo

/-- The window of a region, with the slots that it carved and the memory that it opened there. -/
structure Laid (r : Region) (heapStart shift : Nat) : Prop where
  grain : 16 ∣ r.size
  size_pos : 0 < r.size
  size_le : r.size ≤ SizeClass.largest
  roomy : 16 * r.size ≤ 2 ^ shift
  start_eq : r.start = heapStart + r.index * 2 ^ shift
  windowEnd_eq : r.windowEnd = r.start + 2 ^ shift
  finish_eq : r.finish = r.start + 2 ^ shift / r.size * r.size
  first_tiles : r.Tiles r.first
  openFrom_eq : r.openFrom = roundDown r.first pageSize
  next_tiles : r.Tiles r.next
  first_le : r.first ≤ r.next
  next_le : r.next ≤ r.finish
  openFrom_le : r.openFrom ≤ r.openTo
  openTo_le : r.openTo ≤ r.windowEnd

/-- The slots that it carved have room for their headers as well. -/
structure Sound (r : Region) (heapStart shift : Nat) : Prop extends r.Laid heapStart shift where
  headed : r.first < r.next → headerSize ≤ r.size

/-- What never changes about a region, and that no slot is uncarved. -/
structure Extends (r r' : Region) : Prop where
  index_eq : r'.index = r.index
  size_eq : r'.size = r.size
  start_eq : r'.start = r.start
  finish_eq : r'.finish = r.finish
  windowEnd_eq : r'.windowEnd = r.windowEnd
  first_eq : r'.first = r.first
  openFrom_eq : r'.openFrom = r.openFrom
  next_le : r.next ≤ r'.next

theorem Extends.refl (r : Region) : r.Extends r :=
  ⟨rfl, rfl, rfl, rfl, rfl, rfl, rfl, Nat.le_refl _⟩

theorem Extends.trans {r r' r'' : Region} (h : r.Extends r') (h' : r'.Extends r'') :
    r.Extends r'' where
  index_eq := h'.index_eq.trans h.index_eq
  size_eq := h'.size_eq.trans h.size_eq
  start_eq := h'.start_eq.trans h.start_eq
  finish_eq := h'.finish_eq.trans h.finish_eq
  windowEnd_eq := h'.windowEnd_eq.trans h.windowEnd_eq
  first_eq := h'.first_eq.trans h.first_eq
  openFrom_eq := h'.openFrom_eq.trans h.openFrom_eq
  next_le := Nat.le_trans h.next_le h'.next_le

theorem Extends.tiles {r r' : Region} (h : r.Extends r') {base : Nat} :
    r'.Tiles base ↔ r.Tiles base := by
  rw [Tiles, Tiles, h.start_eq, h.size_eq]

theorem Extends.carves {r r' : Region} (h : r.Extends r') {base : Nat} (hb : r.Carves base) :
    r'.Carves base :=
  ⟨h.tiles.mpr hb.1, h.first_eq ▸ hb.2.1, Nat.lt_of_lt_of_le hb.2.2 h.next_le⟩

/-! ## Slots as intervals -/

theorem Tiles.eq_of_mem {r : Region} {base base' a : Nat} (hb : r.Tiles base)
    (hb' : r.Tiles base') (h : base ≤ a ∧ a < base + r.size) (h' : base' ≤ a ∧ a < base' + r.size) :
    base = base' := by
  obtain ⟨hle, k, hk⟩ := hb
  obtain ⟨hle', k', hk'⟩ := hb'
  have hquot : (a - r.start) / r.size = k := Nat.div_eq_of_lt_le
    (by rw [Nat.mul_comm]; omega) (by rw [Nat.add_mul, Nat.mul_comm k]; omega)
  have hquot' : (a - r.start) / r.size = k' := Nat.div_eq_of_lt_le
    (by rw [Nat.mul_comm]; omega) (by rw [Nat.add_mul, Nat.mul_comm k']; omega)
  have heq : k = k' := hquot.symm.trans hquot'
  subst heq
  omega

theorem Tiles.next {r : Region} {base : Nat} (h : r.Tiles base) : r.Tiles (base + r.size) := by
  obtain ⟨hle, hdvd⟩ := h
  refine ⟨by omega, ?_⟩
  rw [Nat.sub_add_comm hle]
  exact Nat.dvd_add hdvd (Nat.dvd_refl _)

theorem Tiles.add_size_le {r : Region} {base base' : Nat} (h : r.Tiles base) (h' : r.Tiles base')
    (hlt : base < base') : base + r.size ≤ base' := by
  obtain ⟨hle, hdvd⟩ := h
  obtain ⟨hle', hdvd'⟩ := h'
  have hdiff : r.size ∣ base' - base := by
    have hsub := Nat.dvd_sub hdvd' hdvd
    rwa [Nat.sub_sub_sub_cancel_right hle] at hsub
  have hsize : r.size ≤ base' - base := Nat.le_of_dvd (by omega) hdiff
  omega

namespace Laid

variable {r : Region} {heapStart shift base : Nat}

theorem finish_le (s : r.Laid heapStart shift) : r.finish ≤ r.windowEnd := by
  have hwhole := Nat.div_mul_le_self (2 ^ shift) r.size
  rw [s.finish_eq, s.windowEnd_eq]
  omega

theorem carved_finish_le (s : r.Laid heapStart shift) (h : r.Carves base) :
    base + r.size ≤ r.next := h.1.add_size_le s.next_tiles h.2.2

theorem carved_within (s : r.Laid heapStart shift) (h : r.Carves base) : base < r.windowEnd :=
  Nat.lt_of_lt_of_le h.2.2 (Nat.le_trans s.next_le s.finish_le)

end Laid

theorem Opens.readable {r : Region} {base : Nat} (h : r.Opens base) (hsize : headerSize ≤ r.size) :
    r.readable base = true := by
  obtain ⟨hfrom, hto⟩ := h
  simp only [Region.readable, Bool.and_eq_true, decide_eq_true_eq]
  omega

namespace Sound

variable {r : Region} {heapStart shift base : Nat}

theorem carved_headed (s : r.Sound heapStart shift) (h : r.Carves base) : headerSize ≤ r.size :=
  s.headed (Nat.lt_of_le_of_lt h.2.1 h.2.2)

theorem baseOf_eq (s : r.Sound heapStart shift) (hshift : shift ≤ 36) {a : Nat}
    (hhigh : a < r.windowEnd) : r.baseOf a = r.start + (a - r.start) / r.size * r.size := by
  have hwindow := s.windowEnd_eq
  have hpow : 2 ^ shift ≤ 2 ^ 36 := Nat.pow_le_pow_right (by decide) hshift
  have hproduct : (a - r.start) * r.size < 2 ^ 63 := calc
    (a - r.start) * r.size ≤ 2 ^ 36 * SizeClass.largest :=
      Nat.mul_le_mul (by omega) s.size_le
    _ < 2 ^ 63 := by decide
  rw [baseOf, Reciprocal.div_ofDivisor s.size_pos hproduct]

/-- The division-free slot of an address is the one whose interval holds it. -/
theorem baseOf_eq_iff (s : r.Sound heapStart shift) (hshift : shift ≤ 36) {a : Nat}
    (hlow : r.start ≤ a) (hhigh : a < r.windowEnd) :
    r.baseOf a = base ↔ r.Tiles base ∧ base ≤ a ∧ a < base + r.size := by
  have hexact := s.baseOf_eq hshift hhigh
  have hself : r.Tiles (r.baseOf a) := by
    refine ⟨by omega, ?_⟩
    rw [hexact, Nat.add_sub_cancel_left]
    exact Nat.dvd_mul_left ..
  have hmem : r.baseOf a ≤ a ∧ a < r.baseOf a + r.size := by
    have hfloor := Nat.div_mul_le_self (a - r.start) r.size
    have hceil := Nat.lt_mul_div_succ (a - r.start) s.size_pos
    rw [Nat.mul_add, Nat.mul_comm] at hceil
    omega
  constructor
  · intro heq
    subst heq
    exact ⟨hself, hmem⟩
  · intro h
    rcases h with ⟨htiles, hin⟩
    exact hself.eq_of_mem htiles hmem hin

end Sound

/-! ## What a region can do -/

theorem laid_create {heapStart shift skip : Nat} {c : SizeClass} (hskip : skip < skipLimit)
    (hc : 16 ∣ c.size ∧ 0 < c.size ∧ c.size ≤ SizeClass.largest ∧ 16 * c.size ≤ 2 ^ shift) :
    (create heapStart shift skip c).Laid heapStart shift := by
  obtain ⟨hgrain, hpos, hle, hroomy⟩ := hc
  have hfirst : Tiles (create heapStart shift skip c) (create heapStart shift skip c).first := by
    refine ⟨Nat.le_add_right _ _, ?_⟩
    simp only [create, Nat.add_sub_cancel_left]
    exact Nat.dvd_mul_left ..
  have hslots : 16 ≤ 2 ^ shift / c.size := (Nat.le_div_iff_mul_le hpos).mpr hroomy
  have hfits : skip * c.size ≤ 2 ^ shift / c.size * c.size :=
    Nat.mul_le_mul_right _ (Nat.le_trans (Nat.le_of_lt hskip) hslots)
  have hwhole := Nat.div_mul_le_self (2 ^ shift) c.size
  have hdown := roundDown_le (heapStart + c.index <<< shift + skip * c.size) pageSize
  refine ⟨hgrain, hpos, hle, hroomy, ?_, rfl, rfl, hfirst, rfl, hfirst, Nat.le_refl _, ?_,
    Nat.le_refl _, ?_⟩
  · simp only [create, Nat.shiftLeft_eq]
  · simp only [create]
    omega
  · simp only [create]
    omega

theorem sound_create {heapStart shift skip : Nat} {c : SizeClass} (hskip : skip < skipLimit)
    (hc : 16 ∣ c.size ∧ 0 < c.size ∧ c.size ≤ SizeClass.largest ∧ 16 * c.size ≤ 2 ^ shift) :
    (create heapStart shift skip c).Sound heapStart shift :=
  ⟨laid_create hskip hc, fun h => absurd h (Nat.lt_irrefl _)⟩

theorem extends_putBack (r : Region) (base : Nat) : r.Extends (r.putBack base) :=
  ⟨rfl, rfl, rfl, rfl, rfl, rfl, rfl, Nat.le_refl _⟩

theorem Laid.putBack {r : Region} {heapStart shift : Nat} (s : r.Laid heapStart shift)
    (base : Nat) : (r.putBack base).Laid heapStart shift :=
  ⟨s.grain, s.size_pos, s.size_le, s.roomy, s.start_eq, s.windowEnd_eq, s.finish_eq, s.first_tiles,
    s.openFrom_eq, s.next_tiles, s.first_le, s.next_le, s.openFrom_le, s.openTo_le⟩

theorem Sound.putBack {r : Region} {heapStart shift : Nat} (s : r.Sound heapStart shift)
    (base : Nat) : (r.putBack base).Sound heapStart shift := ⟨s.toLaid.putBack base, s.headed⟩

/-! ## Taking slots -/

def grown (r : Region) (upto : Nat) : Region :=
  if upto ≤ r.openTo then r else { r with openTo := r.reach upto }

def carve (r : Region) : Region := { r with next := r.next + r.size }

theorem grow_eq (r : Region) (refusal : Option String) (upto : Nat) :
    r.grow refusal upto = .ok (r.grown upto) ∨
      r.openTo < upto ∧ ∃ reason, refusal = some reason ∧ r.grow refusal upto = .error reason := by
  unfold grow opening? grown
  by_cases h : upto ≤ r.openTo
  · rw [if_pos h, if_pos h]
    exact .inl rfl
  · rw [if_neg h, if_neg h]
    cases refusal with
    | none => exact .inl rfl
    | some reason => exact .inr ⟨Nat.lt_of_not_le h, reason, rfl, rfl⟩

/-- A slot that waits is taken, or else one is carved, if there is a whole one, and lost if its memory
is refused. -/
theorem take_cases (r : Region) (refusal : Option String) :
    (∃ base free, r.free.toList = base :: free.toList ∧
        r.take refusal = (.slot base, { r with free })) ∨
      r.free.toList = [] ∧ r.finish < r.next + r.size ∧ r.take refusal = (.exhausted, r) ∨
      r.free.toList = [] ∧ r.next + r.size ≤ r.finish ∧
        (r.take refusal = (.slot r.next, r.carve.grown (r.next + r.size)) ∨
          r.openTo < r.next + r.size ∧ ∃ reason, refusal = some reason ∧
            r.take refusal = (.refused (r.reach (r.next + r.size)) reason, r.carve)) := by
  unfold take
  cases hpop : r.free.pop? with
  | some popped => exact .inl ⟨popped.1, popped.2, Queue.toList_of_pop? hpop, rfl⟩
  | none =>
      have hempty := (Queue.pop?_eq_none_iff _).mp hpop
      by_cases hlast : r.finish < r.next + r.size
      · exact .inr (.inl ⟨hempty, hlast, if_pos hlast⟩)
      · refine .inr (.inr ⟨hempty, Nat.not_lt.mp hlast, ?_⟩)
        simp only [if_neg hlast]
        rcases r.carve.grow_eq refusal r.carve.next with hgrow | ⟨hclosed, reason, hrefusal, hgrow⟩
        all_goals
          unfold carve at hgrow
          rw [hgrow]
        · exact .inl rfl
        · exact .inr ⟨hclosed, reason, hrefusal, rfl⟩

theorem take_slot {r r' : Region} {refusal : Option String} {base : Nat}
    (h : r.take refusal = (.slot base, r')) :
    (r.free.toList = base :: r'.free.toList ∧ r' = { r with free := r'.free }) ∨
      (r.free.toList = [] ∧ base = r.next ∧ r.next + r.size ≤ r.finish ∧
        r' = r.carve.grown (r.next + r.size)) := by
  rcases r.take_cases refusal with ⟨first, free, hqueue, htake⟩ | ⟨_, _, htake⟩ | ⟨hempty, hfits, hrest⟩
  · obtain ⟨hbase, rfl⟩ := Prod.mk.inj (htake.symm.trans h)
    obtain rfl := Taken.slot.inj hbase
    exact .inl ⟨hqueue, rfl⟩
  · cases (Prod.mk.inj (htake.symm.trans h)).1
  · rcases hrest with htake | ⟨_, _, _, htake⟩
    · obtain ⟨hbase, rfl⟩ := Prod.mk.inj (htake.symm.trans h)
      exact .inr ⟨hempty, (Taken.slot.inj hbase).symm, hfits, rfl⟩
    · cases (Prod.mk.inj (htake.symm.trans h)).1

theorem take_refused {r r' : Region} {refusal : Option String} {upto : Nat} {reason : String}
    (h : r.take refusal = (.refused upto reason, r')) :
    refusal = some reason ∧ r.free.toList = [] ∧ r.next + r.size ≤ r.finish ∧
      r.openTo < r.next + r.size ∧ upto = r.reach (r.next + r.size) ∧ r' = r.carve := by
  rcases r.take_cases refusal with ⟨_, _, _, htake⟩ | ⟨_, _, htake⟩ | ⟨hempty, hfits, hrest⟩
  · cases (Prod.mk.inj (htake.symm.trans h)).1
  · cases (Prod.mk.inj (htake.symm.trans h)).1
  · rcases hrest with htake | ⟨hclosed, _, hrefusal, htake⟩
    · cases (Prod.mk.inj (htake.symm.trans h)).1
    · obtain ⟨htaken, rfl⟩ := Prod.mk.inj (htake.symm.trans h)
      obtain ⟨rfl, rfl⟩ := Taken.refused.inj htaken
      exact ⟨hrefusal, hempty, hfits, hclosed, rfl, rfl⟩

theorem take_exhausted {r r' : Region} {refusal : Option String}
    (h : r.take refusal = (.exhausted, r')) :
    r.free.toList = [] ∧ r.finish < r.next + r.size ∧ r' = r := by
  rcases r.take_cases refusal with ⟨_, _, _, htake⟩ | ⟨hempty, hlast, htake⟩ | ⟨_, _, hrest⟩
  · cases (Prod.mk.inj (htake.symm.trans h)).1
  · exact ⟨hempty, hlast, (Prod.mk.inj (htake.symm.trans h)).2.symm⟩
  · rcases hrest with htake | ⟨_, _, _, htake⟩
    · cases (Prod.mk.inj (htake.symm.trans h)).1
    · cases (Prod.mk.inj (htake.symm.trans h)).1

/-! ## What taking keeps -/

theorem grown_extends (r : Region) (upto : Nat) : r.Extends (r.grown upto) := by
  unfold grown
  split
  · exact .refl r
  · exact ⟨rfl, rfl, rfl, rfl, rfl, rfl, rfl, Nat.le_refl _⟩

theorem carve_extends (r : Region) : r.Extends r.carve :=
  ⟨rfl, rfl, rfl, rfl, rfl, rfl, rfl, Nat.le_add_right ..⟩

@[simp] theorem free_grown (r : Region) (upto : Nat) : (r.grown upto).free = r.free := by
  unfold grown
  split <;> rfl

@[simp] theorem next_grown (r : Region) (upto : Nat) : (r.grown upto).next = r.next := by
  unfold grown
  split <;> rfl

theorem openTo_grown {r : Region} {upto : Nat} (hw : upto ≤ r.windowEnd)
    (ho : r.openTo ≤ r.windowEnd) :
    r.openTo ≤ (r.grown upto).openTo ∧ upto ≤ (r.grown upto).openTo ∧
      (r.grown upto).openTo ≤ r.windowEnd := by
  have hround : upto ≤ roundUp upto pageSize := le_roundUp (by decide)
  unfold grown
  split
  · omega
  · simp only [reach]
    omega

theorem Laid.carve {r : Region} {heapStart shift : Nat} (s : r.Laid heapStart shift)
    (hfits : r.next + r.size ≤ r.finish) : r.carve.Laid heapStart shift :=
  ⟨s.grain, s.size_pos, s.size_le, s.roomy, s.start_eq, s.windowEnd_eq, s.finish_eq, s.first_tiles,
    s.openFrom_eq, s.next_tiles.next, Nat.le_trans s.first_le (Nat.le_add_right ..), hfits,
    s.openFrom_le, s.openTo_le⟩

theorem Laid.grown {r : Region} {heapStart shift upto : Nat} (s : r.Laid heapStart shift)
    (hw : upto ≤ r.windowEnd) : (r.grown upto).Laid heapStart shift := by
  obtain ⟨hmore, -, hwithin⟩ := openTo_grown hw s.openTo_le
  have hfrom := s.openFrom_le
  by_cases hopen : upto ≤ r.openTo
  · rw [show r.grown upto = r from if_pos hopen]
    exact s
  · rw [show r.grown upto = { r with openTo := r.reach upto } from if_neg hopen] at hmore hwithin ⊢
    exact ⟨s.grain, s.size_pos, s.size_le, s.roomy, s.start_eq, s.windowEnd_eq, s.finish_eq,
      s.first_tiles, s.openFrom_eq, s.next_tiles, s.first_le, s.next_le, Nat.le_trans hfrom hmore,
      hwithin⟩

theorem extends_of_take {r r' : Region} {refusal : Option String} {taken : Taken}
    (h : r.take refusal = (taken, r')) : r.Extends r' := by
  obtain rfl : (r.take refusal).2 = r' := congrArg Prod.snd h
  rcases r.take_cases refusal with ⟨_, _, _, htake⟩ | ⟨_, _, htake⟩ | ⟨_, _, htake | ⟨_, _, _, htake⟩⟩
  all_goals rw [htake]
  · exact ⟨rfl, rfl, rfl, rfl, rfl, rfl, rfl, Nat.le_refl _⟩
  · exact .refl r
  · exact r.carve_extends.trans (grown_extends ..)
  · exact r.carve_extends

theorem Laid.take {r r' : Region} {heapStart shift : Nat} {refusal : Option String} {taken : Taken}
    (s : r.Laid heapStart shift) (h : r.take refusal = (taken, r')) : r'.Laid heapStart shift := by
  obtain rfl : (r.take refusal).2 = r' := congrArg Prod.snd h
  rcases r.take_cases refusal with ⟨_, _, _, htake⟩ | ⟨_, _, htake⟩ |
    ⟨_, hfits, htake | ⟨_, _, _, htake⟩⟩
  all_goals rw [htake]
  · exact ⟨s.grain, s.size_pos, s.size_le, s.roomy, s.start_eq, s.windowEnd_eq, s.finish_eq,
      s.first_tiles, s.openFrom_eq, s.next_tiles, s.first_le, s.next_le, s.openFrom_le, s.openTo_le⟩
  · exact s
  · exact (s.carve hfits).grown (Nat.le_trans hfits s.finish_le)
  · exact s.carve hfits

/-- Open memory is never closed again. -/
theorem Laid.openTo_le_of_take {r r' : Region} {heapStart shift : Nat} {refusal : Option String}
    {taken : Taken} (s : r.Laid heapStart shift) (h : r.take refusal = (taken, r')) :
    r.openTo ≤ r'.openTo := by
  obtain rfl : (r.take refusal).2 = r' := congrArg Prod.snd h
  rcases r.take_cases refusal with ⟨_, _, _, htake⟩ | ⟨_, _, htake⟩ |
    ⟨_, hfits, htake | ⟨_, _, _, htake⟩⟩
  · exact Nat.le_of_eq (congrArg (·.2.openTo) htake.symm)
  · exact Nat.le_of_eq (congrArg (·.2.openTo) htake.symm)
  · rw [htake]
    exact (@openTo_grown r.carve _ (Nat.le_trans hfits s.finish_le) s.openTo_le).1
  · exact Nat.le_of_eq (congrArg (·.2.openTo) htake.symm)

/-- The memory of a slot handed out is open, if it is for those that wait. -/
theorem Laid.opens_of_take {r r' : Region} {heapStart shift base : Nat} {refusal : Option String}
    (s : r.Laid heapStart shift) (hqueued : ∀ b ∈ r.free.toList, r.Opens b)
    (h : r.take refusal = (.slot base, r')) : r'.Opens base := by
  rcases take_slot h with ⟨hqueue, hr'⟩ | ⟨_, rfl, hfits, hr'⟩
  · obtain ⟨hfrom, hto⟩ := hqueued base (by simp [hqueue])
    rw [hr']
    exact ⟨hfrom, hto⟩
  · have hopen := (@openTo_grown r.carve _ (Nat.le_trans hfits s.finish_le) s.openTo_le).2.1
    have hext := extends_of_take h
    have hdown := roundDown_le r.first pageSize
    refine ⟨?_, by rw [hext.size_eq, hr']; exact hopen⟩
    rw [hext.openFrom_eq, s.openFrom_eq]
    exact Nat.le_trans hdown s.first_le

theorem Sound.take {r r' : Region} {heapStart shift : Nat} {refusal : Option String} {taken : Taken}
    (s : r.Sound heapStart shift) (hsize : headerSize ≤ r.size)
    (h : r.take refusal = (taken, r')) : r'.Sound heapStart shift :=
  ⟨s.toLaid.take h, fun _ => (extends_of_take h).size_eq ▸ hsize⟩

theorem Laid.carves_next {r r' : Region} {heapStart shift : Nat} (s : r.Laid heapStart shift)
    (hext : r.Extends r') (hnext : r'.next = r.next + r.size) (b : Nat) :
    r'.Carves b ↔ r.Carves b ∨ b = r.next := by
  have hpos := s.size_pos
  constructor
  · intro hb
    have htiles := hext.tiles.mp hb.1
    by_cases hlt : b < r.next
    · exact .inl ⟨htiles, hext.first_eq ▸ hb.2.1, hlt⟩
    · have hnot : ¬ r.next < b := fun hgt => by
        have hstep := s.next_tiles.add_size_le htiles hgt
        have hbelow := hb.2.2
        omega
      exact .inr (by omega)
  · intro h
    rcases h with hb | rfl
    · exact hext.carves hb
    · exact ⟨hext.tiles.mpr s.next_tiles, hext.first_eq ▸ s.first_le, by omega⟩

/-- A region carves the slot it hands out, if it did not before, and no other. -/
theorem Laid.carves_of_take {r r' : Region} {heapStart shift base : Nat} {refusal : Option String}
    (s : r.Laid heapStart shift) (hqueued : ∀ b ∈ r.free.toList, r.Carves b)
    (h : r.take refusal = (.slot base, r')) (b : Nat) : r'.Carves b ↔ r.Carves b ∨ b = base := by
  have hext := extends_of_take h
  rcases take_slot h with ⟨hqueue, hr'⟩ | ⟨_, rfl, _, hr'⟩
  · have hnext : r'.next = r.next := by rw [hr']
    have hcarves : r.Carves base := hqueued base (by simp [hqueue])
    constructor
    · intro hb
      exact .inl ⟨hext.tiles.mp hb.1, hext.first_eq ▸ hb.2.1, hnext ▸ hb.2.2⟩
    · intro h
      rcases h with hb | rfl
      · exact hext.carves hb
      · exact hext.carves hcarves
  · exact s.carves_next hext (by rw [hr', next_grown]; rfl) b

theorem queue_of_take {r r' : Region} {base : Nat} {refusal : Option String}
    (hnodup : r.free.toList.Nodup) (h : r.take refusal = (.slot base, r')) :
    base ∉ r'.free.toList ∧ r'.free.toList.Nodup ∧
      ∀ b, b ≠ base → (b ∈ r'.free.toList ↔ b ∈ r.free.toList) := by
  rcases take_slot h with ⟨hqueue, _⟩ | ⟨hqueue, _, _, hr'⟩
  · rw [hqueue, List.nodup_cons] at hnodup
    refine ⟨hnodup.1, hnodup.2, fun b hb => ?_⟩
    rw [hqueue]
    simp [hb]
  · have hfree : r'.free.toList = [] := by rw [hr', free_grown]; exact hqueue
    simp [hfree, hqueue]

end TypedHeap.Region
