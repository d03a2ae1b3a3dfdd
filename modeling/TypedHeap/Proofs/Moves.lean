import TypedHeap.Guard.Free
import TypedHeap.Proofs.Custody

/-! # Moves

Each move is about one slot. It keeps the custody of slots, leaves the headers of all other slots
alone, and changes no slot that an address resolves to.
-/

namespace TypedHeap.Heap

/-! ## Headers that can be read -/

theorem InUse.size_le {h : Heap} {registry : Registry} {r : Region} {header : Header}
    (hu : h.InUse registry r header) : header.size + headerSize ≤ r.size :=
  (SizeClasses.select?_eq_some hu.class_eq).2

theorem InUse.referred {h : Heap} {registry : Registry} {r : Region} {header : Header}
    (hu : h.InUse registry r header) :
    ∃ owner, registry.referred? header.owner = some owner ∧ owner.hash ≠ .free := by
  obtain ⟨owner, howner, href⟩ := hu.owned
  have hfree := (Option.filter_eq_some_iff.mp howner).2
  exact ⟨owner, href ▸ Registry.referred?_of_objectType? howner, of_decide_eq_true hfree⟩

theorem Framed.header?_of_opens {h : Heap} (f : h.Framed) {s : Slot} {r : Region}
    (hs : h.IsSlot s r) (hc : r.Carves s.base) (ho : r.Opens s.base) :
    h.header? s.region s.base = some (h.headerAt s.base) := by
  simp [header?, hs.region_eq, ho.readable ((f.sound hs.region_eq).carved_headed hc)]

theorem Retired.isBlank {header : Header} (hf : header.Retired) : header.isBlank = false := by
  simp [Header.isBlank, hf.state_eq, Phase.word]

theorem isBlank_of_isLive {header : Header} (hlive : header.isLive = true) :
    header.isBlank = false := by
  have hstate := of_decide_eq_true (Header.allocated_of_isLive hlive)
  simp [Header.isBlank, hstate, Phase.word]

theorem ne_blank_of_isLive {header : Header} (hlive : header.isLive = true) : header ≠ .blank :=
  fun heq => absurd (heq ▸ isBlank_of_isLive hlive) (by decide)

theorem live?_of_claimed?_eq_none {h : Heap} {s : Slot} (hc : h.claimed? s = none) :
    h.live? s = none := by
  cases hl : h.live? s with
  | none => rfl
  | some header =>
      obtain ⟨hread, hlive⟩ := Option.filter_eq_some_iff.mp hl
      have hclaimed : h.claimed? s = some header :=
        Option.filter_eq_some_iff.mpr ⟨hread, by simp [isBlank_of_isLive hlive]⟩
      exact absurd (hclaimed.symm.trans hc) (Option.some_ne_none header)

namespace Kept

variable {registry : Registry} {h : Heap} {s : Slot} {r : Region} {header : Header}

theorem carves_of_ne_blank (k : h.Kept registry) {i base : Nat} (hr : h.region? i = some r)
    (hlow : r.start ≤ base) (hhigh : base < r.windowEnd) (hne : h.headerAt base ≠ .blank) :
    r.Carves base := by
  by_cases hc : r.Carves base
  · exact hc
  · refine absurd (k.blank fun j q hq hqb => hc ?_) hne
    have hsound := k.framed.sound hq
    have hj := k.framed.index_of_mem hq hqb.1.1
      (Nat.lt_of_lt_of_le hqb.2.2 (Nat.le_trans hsound.next_le hsound.finish_le))
    have hi := k.framed.index_of_mem hr hlow hhigh
    rw [hj] at hi
    rw [hi, hr, Option.some.injEq] at hq
    exact hq ▸ hqb

/-- A carved slot whose header is not blank is in use or freed, and its memory is open. -/
theorem held_cases (k : h.Kept registry) {i base : Nat} (hr : h.region? i = some r)
    (hc : r.Carves base) (hne : h.headerAt base ≠ .blank) :
    r.Opens base ∧ (base ∉ r.free.toList ∧ h.InUse registry r (h.headerAt base) ∨
      base ∈ r.free.toList ∧ (h.headerAt base).Retired) := by
  cases k.carved hr hc with
  | used out opened used => exact ⟨opened, .inl ⟨out, used⟩⟩
  | freed waits opened retired => exact ⟨opened, .inr ⟨waits, retired⟩⟩
  | lost out blank => exact absurd blank hne

theorem freed_of_queued (k : h.Kept registry) {i base : Nat} (hr : h.region? i = some r)
    (hq : base ∈ r.free.toList) : r.Opens base ∧ (h.headerAt base).Retired := by
  cases k.carved hr (k.queued hr hq) with
  | used out => exact absurd hq out
  | freed waits opened retired => exact ⟨opened, retired⟩
  | lost out => exact absurd hq out

/-- Readable headers that are not blank are exactly those of carved slots that are not lost. -/
theorem claimed?_eq_some_iff (k : h.Kept registry) (hs : h.IsSlot s r) :
    h.claimed? s = some header ↔
      r.Carves s.base ∧ h.headerAt s.base = header ∧ header ≠ .blank := by
  constructor
  · intro hclaimed
    obtain ⟨hread, hblank⟩ := Option.filter_eq_some_iff.mp hclaimed
    have hne : header ≠ .blank := fun heq => absurd (heq ▸ hblank) (by decide)
    simp only [header?, hs.region_eq] at hread
    split at hread
    · rw [Option.some.injEq] at hread
      exact ⟨k.carves_of_ne_blank hs.region_eq hs.tiles.1 hs.within (hread ▸ hne), hread, hne⟩
    · cases hread
  · intro h
    rcases h with ⟨hc, rfl, hne⟩
    obtain ⟨hopen, hheld⟩ := k.held_cases hs.region_eq hc hne
    refine Option.filter_eq_some_iff.mpr ⟨k.framed.header?_of_opens hs hc hopen, ?_⟩
    rcases hheld with ⟨_, hu⟩ | ⟨_, hf⟩
    · simp [isBlank_of_isLive hu.live]
    · simp [Retired.isBlank hf]

theorem live?_eq_some_iff (k : h.Kept registry) (hs : h.IsSlot s r) :
    h.live? s = some header ↔
      r.Carves s.base ∧ h.headerAt s.base = header ∧ header.isLive = true := by
  constructor
  · intro hl
    obtain ⟨hread, hlive⟩ := Option.filter_eq_some_iff.mp hl
    have hclaimed : h.claimed? s = some header :=
      Option.filter_eq_some_iff.mpr ⟨hread, by simp [isBlank_of_isLive hlive]⟩
    obtain ⟨hc, heq, -⟩ := (k.claimed?_eq_some_iff hs).mp hclaimed
    exact ⟨hc, heq, hlive⟩
  · intro h
    rcases h with ⟨hc, rfl, hlive⟩
    obtain ⟨hopen, -⟩ := k.held_cases hs.region_eq hc (ne_blank_of_isLive hlive)
    exact Option.filter_eq_some_iff.mpr ⟨k.framed.header?_of_opens hs hc hopen, hlive⟩

theorem carved_of_live (k : h.Kept registry) (hs : h.IsSlot s r)
    (hl : h.live? s = some header) : h.Carved s :=
  ⟨r, hs, ((k.live?_eq_some_iff hs).mp hl).1⟩

theorem claimed?_cases (k : h.Kept registry) (hs : h.IsSlot s r)
    (hc : h.claimed? s = some header) :
    h.InUse registry r header ∧ h.live? s = some header ∨ header.Retired ∧ h.live? s = none := by
  obtain ⟨hcarves, rfl, hne⟩ := (k.claimed?_eq_some_iff hs).mp hc
  obtain ⟨-, ⟨_, hu⟩ | ⟨_, hf⟩⟩ := k.held_cases hs.region_eq hcarves hne
  · exact .inl ⟨hu, (k.live?_eq_some_iff hs).mpr ⟨hcarves, rfl, hu.live⟩⟩
  · refine .inr ⟨hf, ?_⟩
    cases hl : h.live? s with
    | none => rfl
    | some header =>
        obtain ⟨_, rfl, hlive⟩ := (k.live?_eq_some_iff hs).mp hl
        exact nomatch hf.not_allocated.symm.trans (Header.allocated_of_isLive hlive)

theorem inUse_of_live (k : h.Kept registry) (hs : h.IsSlot s r) (hl : h.live? s = some header) :
    h.InUse registry r header ∧ s.base ∉ r.free.toList := by
  obtain ⟨hc, rfl, hlive⟩ := (k.live?_eq_some_iff hs).mp hl
  obtain ⟨-, ⟨hq, hu⟩ | ⟨_, hf⟩⟩ := k.held_cases hs.region_eq hc (ne_blank_of_isLive hlive)
  · exact ⟨hu, hq⟩
  · exact nomatch hf.not_allocated.symm.trans (Header.allocated_of_isLive hlive)

theorem opens_of_live (k : h.Kept registry) (hs : h.IsSlot s r) (hl : h.live? s = some header) :
    r.Opens s.base := by
  obtain ⟨hc, rfl, hlive⟩ := (k.live?_eq_some_iff hs).mp hl
  exact (k.held_cases hs.region_eq hc (ne_blank_of_isLive hlive)).1

end Kept

/-! ## The moves -/

/-- What a move does to its slot. -/
inductive Turn where
  | tagged
  | claimed (size : Nat) (owner : TypeHash)
  | resized (size : Nat)
  | released
  | lost

def released (header : Header) : Header := { header with state := Phase.freed.word }.retire

inductive Move (registry : Registry) (h : Heap) (s : Slot) : Turn → Heap → Prop where
  | tagged (granule : Nat) (tag : Cache.Tag) (carved : h.Carved s)
      (claimed : h.headerAt s.base ≠ .blank) :
      Move registry h s .tagged (h.keepTag s.base granule tag)
  | claimed {size : Nat} {owner : TypeRecord} {refusal : Option String} {epoch : Epoch} {h' : Heap}
      (class_eq : h.classFor? size = some ⟨s.region, s.size⟩)
      (owned : registry.objectType? owner.hash = some owner)
      (taken : h.take s.region refusal = (.slot s.base, h'))
      (next : (h.headerAt s.base).nextEpoch = .ok epoch) :
      Move registry h s (.claimed size owner.hash)
        (h'.renew s.base ((h.headerAt s.base).claim (registry.reference owner.hash) size epoch))
  | resized {size : Nat} {header : Header} {epoch : Epoch} {r : Region} (slot : h.IsSlot s r)
      (live : h.live? s = some header) (class_eq : h.classFor? size = some ⟨s.region, s.size⟩)
      (next : header.nextEpoch = .ok epoch) :
      Move registry h s (.resized size) (h.setHeader s.base (header.resize size))
  | released {header : Header} {r : Region} (slot : h.IsSlot s r)
      (live : h.live? s = some header) :
      Move registry h s .released ((h.renew s.base (released header)).putBack s.region s.base)
  | lost {size upto : Nat} {refusal : Option String} {reason : String} {r : Region} {h' : Heap}
      (class_eq : h.classFor? size = some ⟨s.region, s.size⟩) (region_eq : h.region? s.region = some r)
      (base_eq : s.base = r.next) (refused : h.take s.region refusal = (.refused upto reason, h')) :
      Move registry h s .lost h'

/-! ## Moves as changes of one slot -/

section Changes

variable {h h' : Heap} {i base : Nat} {r : Region}

theorem alters_keepTag (hr : h.region? i = some r) (base granule : Nat) (tag : Cache.Tag) :
    h.Alters (h.keepTag base granule tag) i base r r := by
  obtain ⟨hrange, hshift, hclasses, hregions⟩ := keepTag_fields h base granule tag
  obtain ⟨cache, hheaders⟩ := headerAt_keepTag h base granule tag
  refine ⟨hrange, hshift, hclasses, by rw [hregions], hr, ?_, ?_, ?_, .refl r⟩
  · rw [region?, hregions]; exact hr
  · intro j _
    rw [region?, hregions]; rfl
  · intro a ha
    rw [hheaders, if_neg (Ne.symm ha)]

theorem alters_setHeader (hr : h.region? i = some r) (base : Nat) (header : Header) :
    h.Alters (h.setHeader base header) i base r r :=
  ⟨rfl, rfl, rfl, rfl, hr, hr, fun _ _ => rfl,
    fun a ha => by rw [headerAt_setHeader, if_neg (Ne.symm ha)], .refl r⟩

theorem alters_take {refusal : Option String} {taken : Region.Taken}
    (ht : h.take i refusal = (taken, h')) (hne : taken ≠ .exhausted) :
    ∃ r r', r.take refusal = (taken, r') ∧ h.Alters h' i base r r' := by
  obtain ⟨_, hnone, _⟩ | ⟨r, r', hr, htake, rfl⟩ := take_cases ht
  · exact absurd hnone hne
  · refine ⟨r, r', htake, rfl, rfl, rfl, List.length_set, hr, ?_, ?_, fun _ _ => rfl,
      Region.extends_of_take htake⟩
    · exact (region?_set hr i).trans (if_pos rfl)
    · intro j hj
      exact (region?_set hr j).trans (if_neg (Ne.symm hj))

theorem headerAt_take {refusal : Option String} {taken : Region.Taken}
    (ht : h.take i refusal = (taken, h')) (a : Nat) : h'.headerAt a = h.headerAt a := by
  obtain ⟨_, _, rfl⟩ | ⟨_, _, _, _, rfl⟩ := take_cases ht <;> rfl

theorem alters_claim {refusal : Option String} (ht : h.take i refusal = (.slot base, h'))
    (header : Header) : ∃ r r', r.take refusal = (.slot base, r') ∧
      h.Alters (h'.renew base header) i base r r' := by
  obtain ⟨r, r', htake, ha⟩ := @alters_take _ _ i base _ _ ht nofun
  refine ⟨r, r', htake, ha.range_eq, ha.shift_eq, ha.classes_eq, ha.length_eq, ha.old, ha.new,
    ha.others, fun a hne => ?_, ha.extends_⟩
  rw [headerAt_renew, if_neg (Ne.symm hne)]
  exact ha.headers a hne

theorem alters_release (hr : h.region? i = some r) (header : Header) :
    h.Alters ((h.renew base header).putBack i base) i base r (r.putBack base) := by
  have hregion (j : Nat) := region?_putBack (h.renew base header) i base j
  refine ⟨rfl, rfl, rfl, List.length_modify .., hr, ?_, ?_, ?_, r.extends_putBack base⟩
  · rw [hregion, if_pos rfl]
    exact congrArg (Option.map _) hr
  · intro j hj
    rw [hregion, if_neg (Ne.symm hj)]
    rfl
  · intro a ha
    exact (headerAt_renew h base header a).trans (if_neg (Ne.symm ha))

end Changes

theorem framed_renew {h : Heap} {base : Nat} {header : Header} :
    (h.renew base header).Framed ↔ h.Framed := by
  constructor <;> intro f
  all_goals exact ⟨f.shift_ge, f.shift_le, f.aligned, f.size_eq, f.classes_eq, f.length_eq,
    f.index_eq, f.class_eq, f.sound⟩

theorem carved_renew {h : Heap} {base : Nat} {header : Header} {s : Slot} :
    (h.renew base header).Carved s ↔ h.Carved s := by
  constructor <;> rintro ⟨r, hs, hcarves⟩
  all_goals exact ⟨r, ⟨hs.region_eq, hs.size_eq, hs.tiles, hs.within⟩, hcarves⟩

/-! ## Every move keeps the order -/

namespace Kept

variable {registry : Registry} {h h' : Heap} {s : Slot}

theorem tagged (k : h.Kept registry) (granule : Nat) (tag : Cache.Tag) (hc : h.Carved s)
    (hne : h.headerAt s.base ≠ .blank) : (h.keepTag s.base granule tag).Kept registry := by
  obtain ⟨r, hs, hcarves⟩ := hc
  obtain ⟨cache, hheaders⟩ := headerAt_keepTag h s.base granule tag
  have hself := hheaders s.base
  rw [if_pos rfl] at hself
  have ha := alters_keepTag hs.region_eq s.base granule tag
  obtain ⟨hopen, hheld⟩ := k.held_cases hs.region_eq hcarves hne
  refine ha.kept k (k.framed.sound hs.region_eq) (fun b => ⟨.inl, ?_⟩) (Nat.le_refl _)
    (fun _ _ => .rfl) (k.nodup hs.region_eq) ?_ ?_
  · intro h
    rcases h with hb | rfl
    · exact hb
    · exact hcarves
  · rw [hself]
    exact k.epoch_lt s.base
  · rcases hheld with ⟨hq, hu⟩ | ⟨hq, hf⟩
    · exact .used hq hopen (ha.inUse (.refl r) (hself ▸ ⟨hu.live, hu.class_eq, hu.owned⟩))
    · exact .freed hq hopen (hself ▸ ⟨hf.stamp_eq, hf.state_eq, hf.owner_eq⟩)

theorem claimed (k : h.Kept registry) {size : Nat} {owner : TypeRecord} {refusal : Option String}
    {epoch : Epoch} (hclass : h.classFor? size = some ⟨s.region, s.size⟩)
    (howned : registry.objectType? owner.hash = some owner)
    (ht : h.take s.region refusal = (.slot s.base, h'))
    (hnext : (h.headerAt s.base).nextEpoch = .ok epoch) :
    (h'.renew s.base
      ((h.headerAt s.base).claim (registry.reference owner.hash) size epoch)).Kept registry := by
  obtain ⟨r, r', htake, ha⟩ := alters_claim ht
    ((h.headerAt s.base).claim (registry.reference owner.hash) size epoch)
  obtain ⟨hsizes, hfits⟩ := SizeClasses.select?_eq_some hclass
  have hsize : r.size = s.size := by
    have hget := k.framed.class_eq ha.old
    exact Option.some.inj (hget.symm.trans hsizes)
  have hsound := k.framed.sound ha.old
  have hroom : headerSize ≤ r.size := by
    rw [hsize]
    exact Nat.le_trans (Nat.le_add_left ..) hfits
  obtain ⟨hout, hnodup, hothers⟩ := Region.queue_of_take (k.nodup ha.old) htake
  have hheader : (h'.renew s.base ((h.headerAt s.base).claim
      (registry.reference owner.hash) size epoch)).headerAt s.base =
      (h.headerAt s.base).claim (registry.reference owner.hash) size epoch := by
    rw [headerAt_renew, if_pos rfl]
  have hopen : r'.Opens s.base :=
    hsound.opens_of_take (fun b hb => (k.freed_of_queued ha.old hb).1) htake
  refine ha.kept k (hsound.take hroom htake)
    (hsound.carves_of_take (fun b hb => k.queued ha.old hb) htake) (hsound.openTo_le_of_take htake)
    hothers hnodup ?_ (.used hout hopen (ha.inUse ha.extends_ ?_))
  · obtain ⟨hlt, rfl⟩ := Word.add?_eq_ok_iff.mp hnext
    rw [hheader]
    exact hlt
  · rw [hheader]
    refine ⟨Header.isLive_claim .., ?_, owner, howned, rfl⟩
    rw [k.framed.index_eq ha.old, hsize]
    exact hclass

theorem resized (k : h.Kept registry) {size : Nat} {header : Header} {r : Region}
    (hs : h.IsSlot s r) (hl : h.live? s = some header)
    (hclass : h.classFor? size = some ⟨s.region, s.size⟩) :
    (h.setHeader s.base (header.resize size)).Kept registry := by
  obtain ⟨hcarves, _, _⟩ := (k.live?_eq_some_iff hs).mp hl
  obtain ⟨hu, hq⟩ := k.inUse_of_live hs hl
  have hheader := headerAt_setHeader h s.base (header.resize size) s.base
  rw [if_pos rfl] at hheader
  have ha := alters_setHeader hs.region_eq s.base (header.resize size)
  refine ha.kept k (k.framed.sound hs.region_eq) (fun b => ⟨.inl, ?_⟩) (Nat.le_refl _)
    (fun _ _ => .rfl) (k.nodup hs.region_eq) ?_
    (.used hq (k.opens_of_live hs hl) (ha.inUse (.refl r) ?_))
  · intro h
    rcases h with hb | rfl
    · exact hb
    · exact hcarves
  · rw [hheader]
    exact Word.wrap_lt _
  · rw [hheader]
    refine ⟨hu.live, ?_, hu.owned⟩
    rw [k.framed.index_eq hs.region_eq, ← hs.size_eq]
    exact hclass

theorem released (k : h.Kept registry) {header : Header} {r : Region} (hs : h.IsSlot s r)
    (hl : h.live? s = some header) :
    ((h.renew s.base (released header)).putBack s.region s.base).Kept registry := by
  obtain ⟨hcarves, heq, hlive⟩ := (k.live?_eq_some_iff hs).mp hl
  obtain ⟨hu, hq⟩ := k.inUse_of_live hs hl
  have hheader : ((h.renew s.base (Heap.released header)).putBack s.region s.base).headerAt
      s.base = Heap.released header := (headerAt_renew ..).trans (if_pos rfl)
  have hqueue : (r.putBack s.base).free.toList = r.free.toList ++ [s.base] :=
    Queue.toList_push ..
  have hopen : r.Opens s.base := k.opens_of_live hs hl
  refine (alters_release hs.region_eq _).kept k ((k.framed.sound hs.region_eq).putBack _)
    (fun b => ⟨fun hb => .inl hb, ?_⟩) (Nat.le_refl _) (fun b hb => ?_) ?_ ?_
    (.freed (by simp [hqueue]) hopen ?_)
  · intro h
    rcases h with hb | rfl
    · exact hb
    · exact hcarves
  · rw [hqueue]
    simp [hb]
  · rw [hqueue, List.nodup_append]
    refine ⟨k.nodup hs.region_eq, by simp, fun a ha b hb => ?_⟩
    rw [List.mem_singleton.mp hb]
    exact fun heq => hq (heq ▸ ha)
  · rw [hheader]
    exact heq ▸ k.epoch_lt s.base
  · rw [hheader]
    simp only [Header.isLive, Header.isSane, Bool.and_eq_true, decide_eq_true_eq] at hlive
    exact ⟨hlive.1, rfl, rfl⟩

theorem headerAt_next (k : h.Kept registry) {i : Nat} {r : Region} (hr : h.region? i = some r)
    (hfits : r.next + r.size ≤ r.finish) : h.headerAt r.next = .blank := by
  have hsound := k.framed.sound hr
  have hpos := hsound.size_pos
  have hfinish := hsound.finish_le
  refine Classical.byContradiction fun hne => ?_
  exact Nat.lt_irrefl _ (k.carves_of_ne_blank hr hsound.next_tiles.1 (by omega) hne).2.2

/-- A slot that is handed out was freed before or never touched. -/
theorem idle_of_take (k : h.Kept registry) {i base : Nat} {refusal : Option String}
    (ht : h.take i refusal = (.slot base, h')) : (h.headerAt base).isLive = false := by
  obtain ⟨_, hnone, _⟩ | ⟨r, r', hr, htake, _⟩ := take_cases ht
  · cases hnone
  rcases Region.take_slot htake with ⟨hqueue, _⟩ | ⟨_, rfl, hfits, _⟩
  · have hretired := (k.freed_of_queued hr (hqueue ▸ List.mem_cons_self)).2
    rw [Header.isLive, hretired.not_allocated, Bool.and_false]
  · rw [k.headerAt_next hr hfits]
    rfl

theorem isSlot_of_take (k : h.Kept registry) {size base : Nat} {c : SizeClass}
    {refusal : Option String} (hclass : h.classFor? size = some c)
    (ht : h.take c.index refusal = (.slot base, h')) :
    h'.Framed ∧ ∃ r', h'.IsSlot ⟨c.index, base, c.size⟩ r' ∧ r'.Carves base ∧ r'.Opens base := by
  obtain ⟨r, r', htake, ha⟩ := @alters_take _ _ c.index base _ _ ht nofun
  obtain ⟨hsizes, hfits⟩ := SizeClasses.select?_eq_some hclass
  have hsize : r.size = c.size := Option.some.inj ((k.framed.class_eq ha.old).symm.trans hsizes)
  have hsound := k.framed.sound ha.old
  have hsound' := hsound.take (hsize ▸ Nat.le_trans (Nat.le_add_left ..) hfits) htake
  have hcarves : r'.Carves base :=
    (hsound.carves_of_take (fun b hb => k.queued ha.old hb) htake base).mpr (.inr rfl)
  refine ⟨ha.framed k.framed hsound', r', ⟨ha.new, ?_, hcarves.1, hsound'.carved_within hcarves⟩,
    hcarves, hsound.opens_of_take (fun b hb => (k.freed_of_queued ha.old hb).1) htake⟩
  exact (ha.extends_.size_eq.trans hsize).symm

theorem lost (k : h.Kept registry) {size upto : Nat} {refusal : Option String} {reason : String}
    {r : Region} (hclass : h.classFor? size = some ⟨s.region, s.size⟩)
    (hr : h.region? s.region = some r) (hbase : s.base = r.next)
    (ht : h.take s.region refusal = (.refused upto reason, h')) : h'.Kept registry := by
  obtain ⟨p, r', htake, ha⟩ := @alters_take _ _ s.region s.base _ _ ht nofun
  obtain rfl := Option.some.inj (hr.symm.trans ha.old)
  obtain ⟨-, hempty, hfits, -, -, rfl⟩ := Region.take_refused htake
  obtain ⟨hsizes, hfit⟩ := SizeClasses.select?_eq_some hclass
  have hsize : r.size = s.size := Option.some.inj ((k.framed.class_eq hr).symm.trans hsizes)
  have hroom : headerSize ≤ r.size := hsize ▸ Nat.le_trans (Nat.le_add_left ..) hfit
  have hsound := k.framed.sound hr
  have hheader : h'.headerAt s.base = .blank := by
    rw [hbase]
    exact (headerAt_take ht r.next).trans (k.headerAt_next hr hfits)
  have hnone : r.carve.free.toList = [] := hempty
  refine ha.kept k (hsound.take hroom htake) (fun b => ?_) (Nat.le_refl _) (fun _ _ => .rfl)
    (hnone ▸ List.nodup_nil) ?_ (.lost (by simp [hnone]) hheader)
  · rw [hbase]
    exact hsound.carves_next r.carve_extends rfl b
  · rw [hheader]
    decide

theorem move (k : h.Kept registry) {turn : Turn} (m : Move registry h s turn h') :
    h'.Kept registry := by
  cases m with
  | tagged granule tag hc hne => exact k.tagged granule tag hc hne
  | claimed hclass howned ht hnext => exact k.claimed hclass howned ht hnext
  | resized hs hl hclass => exact k.resized hs hl hclass
  | released hs hl => exact k.released hs hl
  | lost hclass hr hbase ht => exact k.lost hclass hr hbase ht

end Kept

/-! ## What a move leaves alone -/

namespace Alters

variable {h h' : Heap} {i base : Nat} {r r' : Region}

theorem isSlot (a : h.Alters h' i base r r') {s : Slot} {p : Region} (hs : h.IsSlot s p) :
    ∃ q, h'.IsSlot s q ∧ p.Extends q := by
  obtain ⟨q, hq, hext⟩ := a.region_extended hs.region_eq
  exact ⟨q, ⟨hq, hs.size_eq.trans hext.size_eq.symm, hext.tiles.mpr hs.tiles,
    hext.windowEnd_eq ▸ hs.within⟩, hext⟩

theorem carved (a : h.Alters h' i base r r') {s : Slot} (hc : h.Carved s) : h'.Carved s := by
  obtain ⟨p, hs, hcarves⟩ := hc
  obtain ⟨q, hs', hext⟩ := a.isSlot hs
  exact ⟨q, hs', hext.carves hcarves⟩

theorem resolve?_eq (a : h.Alters h' i base r r') (f : h.Framed) (f' : h'.Framed) (x : Nat) :
    h'.resolve? x = h.resolve? x := by
  have forward {s : Slot} (hres : h.resolve? x = some s) : h'.resolve? x = some s := by
    obtain ⟨p, hs, hlow, hhigh, hend⟩ := f.resolve?_eq_some_iff.mp hres
    obtain ⟨q, hs', hext⟩ := a.isSlot hs
    exact f'.resolve?_of_mem hs' hlow hhigh (hext.windowEnd_eq ▸ hend)
  cases hres : h.resolve? x with
  | some s => exact forward hres
  | none =>
      rw [f.resolve?_eq_none_iff] at hres
      rw [f'.resolve?_eq_none_iff, contains, a.range_eq]
      exact hres

end Alters

namespace Move

variable {registry : Registry} {h h' : Heap} {s : Slot} {turn : Turn}

theorem alters (m : Move registry h s turn h') :
    ∃ r r', h.Alters h' s.region s.base r r' := by
  cases m with
  | tagged granule tag hc =>
      obtain ⟨r, hs, _⟩ := hc
      exact ⟨r, r, alters_keepTag hs.region_eq s.base granule tag⟩
  | claimed _ _ ht =>
      obtain ⟨r, r', _, ha⟩ := alters_claim ht _
      exact ⟨r, r', ha⟩
  | resized hs => exact ⟨_, _, alters_setHeader hs.region_eq s.base _⟩
  | released hs => exact ⟨_, _, alters_release hs.region_eq _⟩
  | lost _ _ _ ht =>
      obtain ⟨r, r', _, ha⟩ := alters_take ht nofun
      exact ⟨r, r', ha⟩

theorem resolve?_eq (m : Move registry h s turn h') (k : h.Kept registry) (x : Nat) :
    h'.resolve? x = h.resolve? x := by
  obtain ⟨r, r', ha⟩ := m.alters
  exact ha.resolve?_eq k.framed (k.move m).framed x

theorem carved (m : Move registry h s turn h') {t : Slot} (hc : h.Carved t) : h'.Carved t := by
  obtain ⟨r, r', ha⟩ := m.alters
  exact ha.carved hc

theorem carved_self (m : Move registry h s turn h') (k : h.Kept registry) : h'.Carved s := by
  have k' := k.move m
  cases m with
  | tagged granule tag hc =>
      obtain ⟨r, hs, _⟩ := id hc
      exact (alters_keepTag hs.region_eq s.base granule tag).carved hc
  | claimed hclass _ ht =>
      obtain ⟨r, r', htake, ha⟩ := alters_claim ht _
      have hsound := k.framed.sound ha.old
      have hcarves : r'.Carves s.base :=
        (hsound.carves_of_take (fun b hb => k.queued ha.old hb) htake _).mpr (.inr rfl)
      have hget := k.framed.class_eq ha.old
      have hsize := (SizeClasses.select?_eq_some hclass).1
      exact ⟨r', ⟨ha.new, (Option.some.inj (hsize.symm.trans hget)).trans
        ha.extends_.size_eq.symm, hcarves.1, (k'.framed.sound ha.new).carved_within hcarves⟩,
        hcarves⟩
  | resized hs hl =>
      exact (alters_setHeader hs.region_eq s.base _).carved ⟨_, hs, ((k.live?_eq_some_iff hs).mp hl).1⟩
  | released hs hl =>
      exact (alters_release hs.region_eq _).carved ⟨_, hs, ((k.live?_eq_some_iff hs).mp hl).1⟩
  | @lost _ _ _ _ r _ hclass hr hbase ht =>
      obtain ⟨p, r', htake, ha⟩ := @alters_take _ _ s.region s.base _ _ ht nofun
      obtain rfl : p = r := Option.some.inj (ha.old.symm.trans hr)
      obtain ⟨_, _, _, _, _, rfl⟩ := Region.take_refused htake
      have hcarves : p.carve.Carves s.base :=
        ((k.framed.sound hr).carves_next p.carve_extends rfl _).mpr (.inr hbase)
      have hsize : s.size = p.size := Option.some.inj
        ((SizeClasses.select?_eq_some hclass).1.symm.trans (k.framed.class_eq hr))
      exact ⟨p.carve, ⟨ha.new, hsize, hcarves.1,
        (k'.framed.sound ha.new).carved_within hcarves⟩, hcarves⟩

theorem headerAt_eq (m : Move registry h s turn h') {a : Nat} (ha : a ≠ s.base) :
    h'.headerAt a = h.headerAt a := by
  obtain ⟨r, r', hal⟩ := m.alters
  exact hal.headers a ha

theorem live?_eq (m : Move registry h s turn h') (k : h.Kept registry) {t : Slot}
    (hc : h.Carved t) (hne : t.base ≠ s.base) : h'.live? t = h.live? t := by
  obtain ⟨r', ht', hcarves'⟩ := m.carved hc
  obtain ⟨r, ht, hcarves⟩ := hc
  refine Option.ext fun header => ?_
  rw [(k.move m).live?_eq_some_iff ht', k.live?_eq_some_iff ht, m.headerAt_eq hne]
  exact and_congr_left' (iff_of_true hcarves' hcarves)

theorem ne_of_live {size : Nat} {type : TypeHash} (m : Move registry h s (.claimed size type) h')
    (k : h.Kept registry) {t : Slot} {r : Region} {header : Header} (ht : h.IsSlot t r)
    (hl : h.live? t = some header) : t.base ≠ s.base := by
  intro heq
  obtain ⟨_, rfl, hlive⟩ := (k.live?_eq_some_iff ht).mp hl
  cases m with
  | claimed _ _ taken =>
      have hidle := heq ▸ k.idle_of_take taken
      exact absurd (hlive.symm.trans hidle) nofun

theorem claimed_fits {size : Nat} {type : TypeHash}
    (m : Move registry h s (.claimed size type) h') : s.user + size ≤ s.finish := by
  cases m with
  | claimed hclass _ _ =>
      have hfits : size + headerSize ≤ s.size := (SizeClasses.select?_eq_some hclass).2
      simp only [Slot.user, Slot.finish]
      omega

end Move

end TypedHeap.Heap
