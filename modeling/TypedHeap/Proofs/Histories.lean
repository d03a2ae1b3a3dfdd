import TypedHeap.Proofs.Moves

/-! # Histories of a slot

An operation is a sequence of moves. What it does to the header of one slot is counted here: how
often the slot gets a new epoch, and whether its allocation ends. An allocation that does not end
keeps its header, and a slot that is not in use stays so until its epoch changes.
-/

namespace TypedHeap

def Header.untagged (header : Header) : Header := { header with cache := 0 }

namespace Heap

namespace Turn

/-- The header after a turn, up to the reference to the tags. -/
def after (registry : Registry) : Turn → Header → Header
  | tagged, header => header
  | claimed size owner, header => header.claim (registry.reference owner) size (header.epoch + 1)
  | resized size, header => { header with size, epoch := header.epoch + 1 }
  | released, header => Heap.released header
  | lost, header => header

def renews : Turn → Bool
  | claimed .. | resized .. => true
  | tagged | released | lost => false

def ends : Turn → Bool
  | resized .. | released => true
  | tagged | claimed .. | lost => false

end Turn

theorem Move.headerAt_self {registry : Registry} {h h' : Heap} {s : Slot} {turn : Turn}
    (m : Move registry h s turn h') (k : h.Kept registry) :
    (h'.headerAt s.base).untagged = (turn.after registry (h.headerAt s.base)).untagged := by
  cases m with
  | tagged granule tag =>
      obtain ⟨cache, hheaders⟩ := headerAt_keepTag h s.base granule tag
      rw [hheaders, if_pos rfl]
      rfl
  | claimed _ _ _ hnext =>
      obtain ⟨_, rfl⟩ := Word.add?_eq_ok_iff.mp hnext
      rw [headerAt_renew, if_pos rfl]
      rfl
  | resized hs hl _ hnext =>
      obtain ⟨_, rfl, _⟩ := (k.live?_eq_some_iff hs).mp hl
      obtain ⟨hlt, _⟩ := Word.add?_eq_ok_iff.mp hnext
      rw [headerAt_setHeader, if_pos rfl, Header.resize, Word.wrap_of_lt hlt]
      rfl
  | released hs hl =>
      obtain ⟨_, rfl, _⟩ := (k.live?_eq_some_iff hs).mp hl
      exact congrArg Header.untagged ((headerAt_renew ..).trans (if_pos rfl))
  | lost _ _ _ ht => exact congrArg Header.untagged (headerAt_take ht _)

theorem Move.idle_before {registry : Registry} {h h' : Heap} {s : Slot} {size : Nat}
    {owner : TypeHash} (m : Move registry h s (.claimed size owner) h') (k : h.Kept registry) :
    (h.headerAt s.base).isLive = false := by
  cases m with
  | claimed _ _ taken => exact k.idle_of_take taken

theorem live?_eq_none_of_idle {h : Heap} {s : Slot} (hidle : (h.headerAt s.base).isLive = false) :
    h.live? s = none := by
  unfold live? header?
  split
  · rfl
  · split
    · simp [hidle]
    · rfl

theorem Move.live_before {registry : Registry} {h h' : Heap} {s : Slot} {turn : Turn}
    (m : Move registry h s turn h') (k : h.Kept registry) (hends : turn.ends = true) :
    (h.headerAt s.base).isLive = true := by
  cases m with
  | tagged => exact nomatch hends
  | claimed => exact nomatch hends
  | lost => exact nomatch hends
  | resized hs hl =>
      obtain ⟨_, rfl, hlive⟩ := (k.live?_eq_some_iff hs).mp hl
      exact hlive
  | released hs hl =>
      obtain ⟨_, rfl, hlive⟩ := (k.live?_eq_some_iff hs).mp hl
      exact hlive

theorem Framed.slot_unique {h : Heap} (f : h.Framed) {s t : Slot} (hs : h.Carved s)
    (ht : h.Carved t) (hbase : s.base = t.base) : s = t := by
  obtain ⟨r, hsr, hsc⟩ := hs
  obtain ⟨q, htq, htc⟩ := ht
  have hregion : s.region = t.region :=
    f.region_unique hsr.region_eq htq.region_eq hsc (hbase ▸ htc)
  have hrq : r = q := by
    have hr := hsr.region_eq
    rw [hregion, htq.region_eq, Option.some.injEq] at hr
    exact hr.symm
  obtain ⟨i, base, size⟩ := s
  obtain ⟨j, base', size'⟩ := t
  simp only at hregion hbase
  have hsize := hsr.size_eq.trans (hrq ▸ htq.size_eq.symm)
  simp only at hsize
  rw [hregion, hbase, hsize]

theorem Move.isSane {registry : Registry} {h h' : Heap} {s : Slot} {turn : Turn}
    (m : Move registry h s turn h') (k : h.Kept registry) {base : Nat}
    (hsane : (h.headerAt base).isSane = true) : (h'.headerAt base).isSane = true := by
  by_cases hbase : base = s.base
  · subst hbase
    refine (congrArg Header.isSane (m.headerAt_self k)).trans ?_
    cases turn with
    | claimed => rfl
    | tagged | resized | released | lost => exact hsane
  · rw [m.headerAt_eq hbase]
    exact hsane

/-- Every carved slot was claimed: none is lost. -/
def Whole (h : Heap) : Prop := ∀ s, h.Carved s → (h.headerAt s.base).isSane = true

theorem Created.whole {config : Config} {raw : Nat} {h : Heap} (hc : Created config raw h) :
    h.Whole := by
  intro s hs
  obtain ⟨r, hslot, hcarves⟩ := hs
  obtain ⟨_, _, _, _, rfl⟩ := hc.region hslot.region_eq
  exact absurd hcarves.2.2 (Nat.not_lt.mpr hcarves.2.1)

theorem Alters.carved_cases {h h' : Heap} {i base : Nat} {r r' : Region}
    (a : h.Alters h' i base r r') (carves : ∀ b, r'.Carves b → r.Carves b ∨ b = base) {s : Slot}
    (hc : h'.Carved s) : h.Carved s ∨ s.base = base := by
  obtain ⟨q, hs, hcarves⟩ := hc
  have old {p : Region} (hp : h.region? s.region = some p) (hext : p.Extends q)
      (hcarves : p.Carves s.base) : h.Carved s :=
    ⟨p, ⟨hp, hs.size_eq.trans hext.size_eq, hext.tiles.mp hs.tiles, hext.windowEnd_eq ▸ hs.within⟩,
      hcarves⟩
  rcases a.region_cases hs.region_eq with ⟨hi, rfl⟩ | ⟨-, hold⟩
  · exact (carves _ hcarves).imp_left (old (hi ▸ a.old) a.extends_)
  · exact .inl (old hold (.refl q) hcarves)

/-- Slots that are carved without being lost are claimed. -/
theorem Move.whole {registry : Registry} {h h' : Heap} {s : Slot} {turn : Turn}
    (m : Move registry h s turn h') (k : h.Kept registry) (hw : h.Whole) (hturn : turn ≠ .lost) :
    h'.Whole := by
  intro t ht
  have hself := congrArg Header.isSane (m.headerAt_self k)
  have hcases : (h'.headerAt s.base).isSane = true ∧ (h.Carved t ∨ t.base = s.base) := by
    cases m with
    | tagged granule tag hc =>
        obtain ⟨r, hs, _⟩ := id hc
        exact ⟨hself.trans (hw s hc), (alters_keepTag hs.region_eq s.base granule tag).carved_cases
          (fun _ => .inl) ht⟩
    | claimed _ _ taken =>
        obtain ⟨r, r', htake, ha⟩ := alters_claim taken _
        have hcarves := (k.framed.sound ha.old).carves_of_take (fun b hb => k.queued ha.old hb) htake
        exact ⟨hself, ha.carved_cases (fun b => (hcarves b).mp) ht⟩
    | resized hs hl =>
        obtain ⟨_, rfl, hlive⟩ := (k.live?_eq_some_iff hs).mp hl
        have hsane := Header.sane_of_isLive hlive
        exact ⟨hself.trans hsane,
          (alters_setHeader hs.region_eq s.base _).carved_cases (fun _ => .inl) ht⟩
    | released hs hl =>
        obtain ⟨_, rfl, hlive⟩ := (k.live?_eq_some_iff hs).mp hl
        have hsane := Header.sane_of_isLive hlive
        exact ⟨hself.trans hsane,
          (alters_release hs.region_eq _).carved_cases (fun _ => .inl) ht⟩
    | lost => exact absurd rfl hturn
  rcases hcases.2 with hc | hbase
  · exact m.isSane k (hw t hc)
  · exact hbase ▸ hcases.1

/-! ## Objects that stay -/

/-- The objects in use stay as they are, but those in slots with `P`. -/
structure Spares (h h' : Heap) (P : Slot → Prop) : Prop where
  framed : h'.Framed
  carved {s : Slot} : h.Carved s → h'.Carved s
  live {s : Slot} {r : Region} {header : Header} :
    h.IsSlot s r → h.live? s = some header → ¬ P s → h'.live? s = some header

theorem Spares.mono {h h' : Heap} {P Q : Slot → Prop} (hs : h.Spares h' P) (himp : ∀ s, P s → Q s) :
    h.Spares h' Q :=
  ⟨hs.framed, hs.carved, fun hslot hl hq => hs.live hslot hl fun hp => hq (himp _ hp)⟩

/-- A change of one slot that closes no memory spares the objects in all others. -/
theorem Alters.spares {registry : Registry} {h h' : Heap} {i base : Nat} {r r' : Region}
    {P : Slot → Prop} (a : h.Alters h' i base r r') (k : h.Kept registry) (f : h'.Framed)
    (opens : r.openTo ≤ r'.openTo)
    (own : ∀ {s q header}, h.IsSlot s q → h.live? s = some header → s.base = base → P s) :
    h.Spares h' P := by
  refine ⟨f, a.carved, fun {s p header} hs hl hp => ?_⟩
  obtain ⟨hcarves, heq, hlive⟩ := (k.live?_eq_some_iff hs).mp hl
  obtain ⟨hfrom, hto⟩ := k.opens_of_live hs hl
  obtain ⟨q, hs', hext⟩ := a.isSlot hs
  have hopen : q.Opens s.base := by
    refine ⟨hext.openFrom_eq ▸ hfrom, hext.size_eq ▸ Nat.le_trans hto ?_⟩
    rcases a.region_cases hs'.region_eq with ⟨hi, rfl⟩ | ⟨-, hold⟩
    · have hold := hs.region_eq
      rw [hi, a.old, Option.some.injEq] at hold
      exact hold ▸ opens
    · obtain rfl := Option.some.inj (hs.region_eq.symm.trans hold)
      exact Nat.le_refl _
  have hread := f.header?_of_opens hs' (hext.carves hcarves) hopen
  rw [a.headers s.base fun hbase => hp (own hs hl hbase), heq] at hread
  exact Option.filter_eq_some_iff.mpr ⟨hread, hlive⟩

theorem Kept.spares_take {registry : Registry} {h h' : Heap} (k : h.Kept registry)
    {size base : Nat} {c : SizeClass} {refusal : Option String} (hclass : h.classFor? size = some c)
    (ht : h.take c.index refusal = (.slot base, h')) : h.Spares h' fun _ => False := by
  obtain ⟨r, r', htake, ha⟩ := @alters_take _ _ c.index base _ _ ht nofun
  have hopens := (k.framed.sound ha.old).openTo_le_of_take htake
  refine ha.spares k (k.isSlot_of_take hclass ht).1 hopens fun {s q header} hs hl hbase => ?_
  obtain ⟨-, rfl, hlive⟩ := (k.live?_eq_some_iff hs).mp hl
  exact nomatch (hbase ▸ hlive).symm.trans (k.idle_of_take ht)

theorem Kept.spares_setHeader {registry : Registry} {h : Heap} (k : h.Kept registry) {s : Slot}
    {r : Region} (hs : h.IsSlot s r) (hc : h.Carved s) (header : Header) :
    h.Spares (h.setHeader s.base header) (· = s) := by
  have ha := alters_setHeader hs.region_eq s.base header
  refine ha.spares k (ha.framed k.framed (k.framed.sound hs.region_eq)) (Nat.le_refl _) ?_
  exact fun ht hl hbase => k.framed.slot_unique (k.carved_of_live ht hl) hc hbase

/-- No other slot was carved at the base of `s`. -/
def Sole (h : Heap) (s : Slot) : Prop := ∀ t, h.Carved t → t.base = s.base → t = s

theorem Framed.sole {h : Heap} (f : h.Framed) {s : Slot} (hs : h.Carved s) : h.Sole s :=
  fun _ ht hbase => f.slot_unique ht hs hbase

theorem Move.base_ne {registry : Registry} {h h' : Heap} {s t : Slot} {turn : Turn}
    (m : Move registry h t turn h') (k : h.Kept registry) (hs : h'.Sole s) (hne : t ≠ s) :
    s.base ≠ t.base := fun hbase => hne (hs t (m.carved_self k) hbase.symm)

theorem Move.sole_of_carved {registry : Registry} {h h' : Heap} {s t : Slot} {turn : Turn}
    (m : Move registry h t turn h') (k : h.Kept registry) (hc : h.Carved s) : h'.Sole s :=
  (k.move m).framed.sole (m.carved hc)

/-! ## Sequences of moves -/

inductive Moves (registry : Registry) : Heap → List (Slot × Turn) → Heap → Prop where
  | done (h : Heap) : Moves registry h [] h
  | more {h h' h'' : Heap} {s : Slot} {turn : Turn} {turns : List (Slot × Turn)}
      (move : Move registry h s turn h') (rest : Moves registry h' turns h'') :
      Moves registry h ((s, turn) :: turns) h''

def renewals (s : Slot) (turns : List (Slot × Turn)) : Nat :=
  turns.countP fun x => x.1 = s && x.2.renews

theorem renewals_append (s : Slot) (turns turns' : List (Slot × Turn)) :
    renewals s (turns ++ turns') = renewals s turns + renewals s turns' := List.countP_append

def endsIn (s : Slot) (turns : List (Slot × Turn)) : Bool :=
  turns.any fun x => x.1 = s && x.2.ends

namespace Moves

variable {registry : Registry} {h h' : Heap} {s : Slot} {turns : List (Slot × Turn)}

theorem one {turn : Turn} (m : Move registry h s turn h') :
    Moves registry h [(s, turn)] h' := .more m (.done h')

theorem append (ms : Moves registry h turns h') {h'' : Heap} {turn : Turn}
    (m : Move registry h' s turn h'') : Moves registry h (turns ++ [(s, turn)]) h'' := by
  induction ms with
  | done => exact one m
  | more m₀ _ ih => exact .more m₀ (ih m)

theorem preserves {P : Heap → Prop}
    (hmove : ∀ {h h' s turn}, Move registry h s turn h' → P h → P h')
    (ms : Moves registry h turns h') (hp : P h) : P h' := by
  induction ms with
  | done => exact hp
  | more m _ ih => exact ih (hmove m hp)

theorem kept (ms : Moves registry h turns h') (k : h.Kept registry) : h'.Kept registry :=
  ms.preserves (P := fun h => h.Kept registry) (fun m k => k.move m) k

theorem resolve?_eq (ms : Moves registry h turns h') (k : h.Kept registry) (a : Nat) :
    h'.resolve? a = h.resolve? a := by
  induction ms with
  | done => rfl
  | more m _ ih => exact (ih (k.move m)).trans (m.resolve?_eq k a)

theorem isSane (ms : Moves registry h turns h') (k : h.Kept registry) {base : Nat}
    (hsane : (h.headerAt base).isSane = true) : (h'.headerAt base).isSane = true := by
  induction ms with
  | done => exact hsane
  | more m _ ih => exact ih (k.move m) (m.isSane k hsane)

theorem whole (ms : Moves registry h turns h') (k : h.Kept registry) (hw : h.Whole)
    (hlost : ∀ s, (s, Turn.lost) ∉ turns) : h'.Whole := by
  induction ms with
  | done => exact hw
  | @more _ _ _ s turn _ m _ ih =>
      have hturn : turn ≠ .lost := fun heq => hlost s (heq ▸ List.mem_cons_self)
      exact ih (k.move m) (m.whole k hw hturn) fun s hs => hlost s (List.mem_cons_of_mem _ hs)

theorem carved (ms : Moves registry h turns h') (hc : h.Carved s) : h'.Carved s :=
  ms.preserves (P := fun h => h.Carved s) (fun m => m.carved) hc

theorem sole (ms : Moves registry h turns h') (hs : h'.Sole s) : h.Sole s :=
  fun _ ht => hs _ (ms.carved ht)

theorem range_eq (ms : Moves registry h turns h') : h'.range = h.range := by
  induction ms with
  | done => rfl
  | more m _ ih =>
      obtain ⟨_, _, ha⟩ := m.alters
      exact ih.trans ha.range_eq

end Moves

theorem Move.epoch_eq {registry : Registry} {h h' : Heap} {s t : Slot} {turn : Turn}
    (m : Move registry h t turn h') (k : h.Kept registry) (hs : h'.Sole s) :
    (h'.headerAt s.base).epoch = (h.headerAt s.base).epoch + renewals s [(t, turn)] := by
  by_cases heq : t = s
  · subst heq
    have hself := congrArg Header.epoch (m.headerAt_self k)
    simp only [Header.untagged] at hself
    rw [hself]
    cases turn <;> simp [renewals, Turn.renews, Turn.after, Header.claim, Heap.released, Header.retire]
  · rw [m.headerAt_eq (m.base_ne k hs heq)]
    simp [renewals, heq]

namespace Moves

variable {registry : Registry} {h h' : Heap} {s : Slot} {turns : List (Slot × Turn)}

theorem epoch_eq (ms : Moves registry h turns h') (k : h.Kept registry) (hs : h'.Sole s) :
    (h'.headerAt s.base).epoch = (h.headerAt s.base).epoch + renewals s turns := by
  induction ms with
  | done h => rfl
  | @more h h₁ h₂ t turn turns m rest ih =>
      rw [ih (k.move m) hs, m.epoch_eq k (rest.sole hs), Nat.add_assoc, ← renewals_append,
        List.singleton_append]

/-- An allocation that does not end keeps its header, the tags apart. -/
theorem untagged_eq (ms : Moves registry h turns h') (k : h.Kept registry) (hc : h.Carved s)
    (hlive : (h.headerAt s.base).isLive = true) (hends : endsIn s turns = false) :
    (h'.headerAt s.base).untagged = (h.headerAt s.base).untagged := by
  induction ms with
  | done => rfl
  | @more h h₁ h₂ t turn turns m _ ih =>
      simp only [endsIn, List.any_cons, Bool.or_eq_false_iff] at hends
      have hstep : (h₁.headerAt s.base).untagged = (h.headerAt s.base).untagged := by
        by_cases heq : t = s
        · subst heq
          have hnot : turn.ends = false := by simpa using hends.1
          cases turn with
          | tagged => exact m.headerAt_self k
          | claimed size owner =>
              exact nomatch hlive.symm.trans (m.idle_before k)
          | resized size => exact nomatch hnot
          | released => exact nomatch hnot
          | lost => exact m.headerAt_self k
        · rw [m.headerAt_eq (m.base_ne k (m.sole_of_carved k hc) heq)]
      have hlive₁ : (h₁.headerAt s.base).isLive = true :=
        (congrArg Header.isLive hstep).trans hlive
      exact (ih (k.move m) (m.carved hc) hlive₁ hends.2).trans hstep

theorem idle (ms : Moves registry h turns h') (k : h.Kept registry) (hs : h'.Sole s)
    (hidle : (h.headerAt s.base).isLive = false) (hrenewals : renewals s turns = 0) :
    (h'.headerAt s.base).isLive = false := by
  induction ms with
  | done => exact hidle
  | @more h h₁ h₂ t turn turns m rest ih =>
      rw [← List.singleton_append, renewals_append] at hrenewals
      have hsplit := Nat.add_eq_zero_iff.mp hrenewals
      refine ih (k.move m) hs ?_ hsplit.2
      by_cases heq : t = s
      · subst heq
        have hself := congrArg Header.isLive (m.headerAt_self k)
        cases turn with
        | tagged | lost => exact hself.trans hidle
        | claimed size owner => simp [renewals, Turn.renews] at hsplit
        | resized size => simp [renewals, Turn.renews] at hsplit
        | released => exact nomatch (m.live_before k rfl).symm.trans hidle
      · rw [m.headerAt_eq (m.base_ne k (rest.sole hs) heq)]
        exact hidle

/-- A slot whose allocation ends is renewed or not in use afterwards. -/
theorem idle_of_ends (ms : Moves registry h turns h') (k : h.Kept registry) (hc : h.Carved s)
    (hends : endsIn s turns = true) (hrenewals : renewals s turns = 0) :
    (h'.headerAt s.base).isLive = false := by
  induction ms with
  | done => exact nomatch hends
  | @more h h₁ h₂ t turn turns m rest ih =>
      rw [← List.singleton_append, renewals_append] at hrenewals
      have hsplit := Nat.add_eq_zero_iff.mp hrenewals
      simp only [endsIn, List.any_cons, Bool.or_eq_true] at hends
      rcases hends with hnow | hlater
      · obtain ⟨heq, hturn⟩ := Bool.and_eq_true_iff.mp hnow
        obtain rfl := of_decide_eq_true heq
        have hsole := (rest.kept (k.move m)).framed.sole (rest.carved (m.carved hc))
        refine rest.idle (k.move m) hsole ?_ hsplit.2
        have hself := congrArg Header.isLive (m.headerAt_self k)
        cases turn with
        | tagged | lost => exact nomatch hturn
        | claimed size owner => exact nomatch hturn
        | resized size => simp [renewals, Turn.renews] at hsplit
        | released =>
            refine hself.trans ?_
            simp [Turn.after, Header.untagged, Heap.released, Header.retire, Header.isLive,
              Header.isAllocated, Phase.word]
      · exact ih (k.move m) (m.carved hc) hlater hsplit.2

end Moves

end Heap

end TypedHeap
