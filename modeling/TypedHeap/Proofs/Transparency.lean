import Mathlib.Data.List.Forall2
import TypedHeap.Proofs.Agreement
import TypedHeap.Proofs.Layouts
import TypedHeap.Proofs.Requests
import TypedHeap.Proofs.SubObjects

/-! # Checks that load no tag

A tag only spares the search of a layout table: its entry is tried again for the type and the offset,
and the table has one entry for both. So a program cannot tell the run of a guard from the run in
which no tag is ever loaded, whatever tags the guard starts with.
-/

namespace TypedHeap

theorem TypeRecord.recall?_empty (owner : TypeRecord) (expected : TypeHash) (offset : Nat) :
    owner.recall? .empty expected offset = none := by
  rw [TypeRecord.recall?, Cache.Chain.load_empty]
  rfl

theorem Heap.eq_of_header? {h : Heap} {i base : Nat} {header : Header}
    (hh : h.header? i base = some header) : h.headerAt base = header := by
  unfold header? at hh
  split at hh
  · cases hh
  · split at hh
    · exact Option.some.inj hh
    · cases hh

theorem Heap.eq_of_claimed? {h : Heap} {s : Slot} {header : Header}
    (hc : h.claimed? s = some header) : h.headerAt s.base = header :=
  eq_of_header? (Option.filter_eq_some_iff.mp hc).1

theorem Heap.eq_of_live? {h : Heap} {s : Slot} {header : Header}
    (hl : h.live? s = some header) : h.headerAt s.base = header :=
  eq_of_header? (Option.filter_eq_some_iff.mp hl).1

/-! ## Null and chains -/

namespace Heap

variable {registry : Registry} {h h' : Heap}

theorem Move.null {s : Slot} {turn : Turn} (m : Move registry h s turn h') (null : 0 ∉ h.chains) :
    0 ∉ h'.chains := by
  have ha := alike_refl null
  cases m with
  | tagged granule tag _ => exact (ha.keepTag s.base granule tag).null
  | claimed _ _ taken =>
      obtain ⟨_, _, rfl⟩ | ⟨_, _, _, _, rfl⟩ := take_cases taken
      · exact (ha.renew s.base _).null
      · exact ((ha.withRegions _).renew s.base _).null
  | resized => exact (ha.setHeader s.base _).null
  | released => exact ((ha.renew s.base _).putBack s.region s.base).null
  | lost _ _ _ refused =>
      obtain ⟨_, _, rfl⟩ | ⟨_, _, _, _, rfl⟩ := take_cases refused
      · exact null
      · exact (ha.withRegions _).null

end Heap

/-- In every reachable state, null refers to no chain. -/
theorem Guard.Reachable.null {g : Guard} (hr : g.Reachable) : 0 ∉ g.heap.chains := by
  refine hr.preserves (P := fun h => 0 ∉ h.chains) Heap.Move.null fun {_ _ h} hcreated => ?_
  rw [hcreated.chains_eq]
  exact Std.TreeMap.not_mem_emptyc

/-! ## Verdicts without tags -/

namespace Verdict

/-- The second verdict is the first one, or else that of the search that a tag spared: it allows the
same, and a tag is kept in a chain that was there before. -/
inductive Spares (h : Heap) : Verdict → Verdict → Prop where
  | same (v : Verdict) : Spares h v v
  | search {bounds : Bounds} {tag : Option (Nat × Nat × Cache.Tag)}
      (linked : ∀ kept, tag = some kept → (h.headerAt kept.1).cache ∈ h.chains) :
      Spares h (pass [.fastTypeChecks] bounds)
        { pass [.slowTypeChecks, .registryLookups] bounds with tag }

theorem Spares.bounds_eq {h : Heap} {v v' : Verdict} (hs : Spares h v v') :
    v'.bounds = v.bounds := by cases hs <;> rfl

theorem Spares.violation_eq {h : Heap} {v v' : Verdict} (hs : Spares h v v') :
    v'.violation = v.violation := by cases hs <;> rfl

theorem ofOffset_spares {h : Heap} {owner : TypeRecord} {es : List Layout.Entry}
    (hindexes : owner.Indexes es) (registry : Registry) (slot : Slot) (size address : Nat)
    (expected : TypeHash) (offset : Nat) :
    Spares h (ofOffset registry slot size (h.chainOf (h.headerAt slot.base)) owner address expected
        offset)
      (ofOffset registry slot size .empty owner address expected offset) := by
  cases hrecall : owner.recall? (h.chainOf (h.headerAt slot.base)) expected offset with
  | none =>
      have heq : ofOffset registry slot size (h.chainOf (h.headerAt slot.base)) owner address
          expected offset = ofOffset registry slot size .empty owner address expected offset := by
        simp only [ofOffset, hrecall, TypeRecord.recall?_empty]
      rw [heq]
      exact .same _
  | some e =>
      -- the tag was read in a chain, and led to the entry that the search finds
      have hmem : (h.headerAt slot.base).cache ∈ h.chains := by
        by_contra hnot
        rw [Heap.chainOf, Std.TreeMap.getD_eq_fallback hnot, TypeRecord.recall?_empty] at hrecall
        cases hrecall
      have hfound := (hindexes.lookup_eq expected offset).trans (hindexes.recall? hrecall)
      obtain ⟨place, hlookup⟩ := Layout.Lookup.found?_eq_some_iff.mp hfound
      simp only [ofOffset, hrecall, TypeRecord.recall?_empty, TypeRecord.lookup] at hlookup ⊢
      simp only [hlookup]
      apply Spares.search
      intro kept hkept
      obtain ⟨_, _, rfl⟩ := Option.map_eq_some_iff.mp hkept
      exact hmem

theorem ofType_spares {h : Heap} {owner : TypeRecord} {es : List Layout.Entry}
    (hindexes : owner.Indexes es) (registry : Registry) (slot : Slot) (size address : Nat)
    (expected : TypeHash) :
    Spares h (ofType registry slot size (h.chainOf (h.headerAt slot.base)) owner address expected)
      (ofType registry slot size .empty owner address expected) := by
  unfold ofType
  cases owner.fold (address - slot.user) with
  | error f => exact .same _
  | ok offset => exact ofOffset_spares hindexes registry slot size address expected offset

theorem ofLive_spares {c : Catalog} {registry : Registry} (built : c.build = .ok registry) {h : Heap}
    {slot : Slot} {header : Header} (heq : h.headerAt slot.base = header) (p : Pointer)
    (expected : TypeHash) :
    Spares h (ofLive registry slot header (h.chainOf header) p expected)
      (ofLive registry slot header .empty p expected) := by
  unfold ofLive
  simp only
  split
  · exact .same _
  · split
    · exact .same _
    · cases hreferred : registry.referred? header.owner with
      | none => exact .same _
      | some owner =>
          simp only
          split
          · exact .same _
          · next hfree =>
            obtain ⟨es, hindexes⟩ :=
              Catalog.indexes_of_mem built (Registry.mem_of_referred? hreferred hfree)
            rw [← heq]
            exact ofType_spares hindexes ..

end Verdict

namespace Guard

variable {c : Catalog} {registry : Registry} {g g' : Guard}

def withChains (g : Guard) (chains : Std.TreeMap Nat Cache.Chain) : Guard :=
  { g with heap := { g.heap with chains } }

theorem registry_withChains (g : Guard) (chains : Std.TreeMap Nat Cache.Chain) :
    (g.withChains chains).registry = g.registry := rfl

theorem resolve?_withChains (g : Guard) (chains : Std.TreeMap Nat Cache.Chain) (address : Nat) :
    (g.withChains chains).heap.resolve? address = g.heap.resolve? address := rfl

theorem claimed?_withChains (g : Guard) (chains : Std.TreeMap Nat Cache.Chain) (s : Slot) :
    (g.withChains chains).heap.claimed? s = g.heap.claimed? s := rfl

/-- The verdict on a pointer if every load of a tag answers that it is unknown, as those of chains
without lines do. -/
def judgeBlind (g : Guard) (p : Pointer) (expected : TypeHash) : Verdict :=
  (g.withChains {}).judge p expected

theorem chainOf_withChains_nil (g : Guard) (header : Header) :
    (g.withChains {}).heap.chainOf header = .empty := Std.TreeMap.getD_emptyc

theorem Alike.judgeBlind_eq (ha : g.Alike registry g') (p : Pointer) (expected : TypeHash) :
    g'.judgeBlind p expected = g.judgeBlind p expected := by
  simp only [judgeBlind, judge, resolve?_withChains, claimed?_withChains, registry_withChains,
    chainOf_withChains_nil, ha.heap.sameSlots.resolve?_eq, ha.heap.sameSlots.claimed?_eq,
    ha.registry_eq]

/-- With a registry that was built, tags spare searches and nothing else. -/
theorem judge_spares (built : c.build = .ok g.registry) (p : Pointer) (expected : TypeHash) :
    Verdict.Spares g.heap (g.judge p expected) (g.judgeBlind p expected) := by
  simp only [judgeBlind, judge, resolve?_withChains, claimed?_withChains, registry_withChains,
    chainOf_withChains_nil]
  cases g.heap.resolve? p.address with
  | none => exact .same _
  | some slot =>
      simp only
      cases hc : g.heap.claimed? slot with
      | none => exact .same _
      | some header =>
          simp only
          split
          · exact .same _
          · split
            · exact .same _
            · split
              · exact .same _
              · split
                · exact .same _
                · exact Verdict.ofLive_spares built (Heap.eq_of_claimed? hc) p expected

/-! ## Settling verdicts -/

namespace Alike

theorem bumps (ha : g.Alike registry g') (cs : List Counter) :
    (cs.foldl Guard.bump g).Alike registry (cs.foldl Guard.bump g') := by
  induction cs generalizing g g' with
  | nil => exact ha
  | cons c cs ih => exact ih (ha.bump c)

theorem bumps_of_spares {h : Heap} {v v' : Verdict} (ha : g.Alike registry g')
    (hs : Verdict.Spares h v v') :
    (v.counters.foldl Guard.bump g).Alike registry (v'.counters.foldl Guard.bump g') := by
  cases hs with
  | same => exact ha.bumps v.counters
  | search linked =>
      have hfast : Counter.TellsWay .fastTypeChecks := trivial
      have hslow : Counter.TellsWay .slowTypeChecks := trivial
      have hlookup : Counter.TellsWay .registryLookups := trivial
      exact ((ha.bump_left hfast).bump_right hslow).bump_right hlookup

theorem afterTag_of_spares {h h' : Heap} {v v' : Verdict} (ha : h.Alike h')
    (hs : Verdict.Spares h v v') : (afterTag h v).Alike (afterTag h' v') := by
  cases hs with
  | same =>
      unfold afterTag
      cases v.tag with
      | none => exact ha
      | some kept => exact ha.keepTag ..
  | @search bounds tag linked =>
      cases tag with
      | none => exact ha
      | some kept => exact ha.keepTag_right (linked kept rfl) ..

theorem settle (ha : g.Alike registry g') {v v' : Verdict} (hs : Verdict.Spares g.heap v v') :
    (g.settle v).Alike registry (g'.settle v') := by
  have htagged := (ha.bumps_of_spares hs).withHeap (afterTag_of_spares ha.heap hs)
  rw [settle_eq, settle_eq, hs.violation_eq]
  cases v.violation with
  | none => exact htagged
  | some violation => exact htagged.report violation

end Alike

/-! ## The two runs -/

theorem Alike.checkBy (built : c.build = .ok registry) (ha : g.Alike registry g') (p : Pointer)
    (expected : TypeHash) :
    Replies (Alike registry) (g.checkBy judge p expected) (g'.checkBy judgeBlind p expected) := by
  have hchecked := (ha.bump .typeChecks).trace (.checked p.address (g.registry.nameOf expected))
  unfold Guard.checkBy
  rw [ha.registry_eq]
  generalize (g.bump .typeChecks).trace (.checked p.address (g.registry.nameOf expected)) = b,
    (g'.bump .typeChecks).trace (.checked p.address (g.registry.nameOf expected)) = b' at hchecked
  have hs := judge_spares (hchecked.known ▸ built) p expected
  simp only [hchecked.judgeBlind_eq, hs.bounds_eq]
  exact .intro (hchecked.settle hs)

/-- One request is answered alike with tags and without, from guards that are alike. -/
theorem Alike.reply (built : c.build = .ok registry) (ha : g.Alike registry g') (r : Request) :
    Matches registry (g.reply judge r) (g'.reply judgeBlind r) := by
  have hreply := (congruence_alike registry).reply
    (fun hb p expected => Alike.checkBy built hb p expected) ha r
  generalize g.reply judge r = first, g'.reply judgeBlind r = first' at hreply
  cases hreply with
  | intro hrelated => exact .intro (hrelated.related Alike.halted_eq)

theorem Alike.replies (built : c.build = .ok registry) (ha : g.Alike registry g')
    (rs : List Request) :
    List.Forall₂ (Matches registry) (g.replies judge rs) (g'.replies judgeBlind rs) := by
  induction rs generalizing g g' with
  | nil => exact .nil
  | cons r rs ih =>
      have hreply := ha.reply built r
      unfold Guard.replies
      generalize g.reply judge r = first, g'.reply judgeBlind r = first' at hreply
      cases hreply with
      | intro halike => exact .cons (.intro halike) (ih halike)

/-- Tags are transparent. Whatever the chains of a guard hold, all requests get the same answers if
no tag is ever loaded, and after each of them the same lines were written, with all violations among
them, and the memory, the headers and the free slots of all regions are the same. Only the counters
of the ways of type checks may differ. Null refers to no chain in any reachable state. -/
theorem replies_match_blind (built : c.build = .ok g.registry) (null : 0 ∉ g.heap.chains)
    (rs : List Request) :
    List.Forall₂ (Matches g.registry) (g.replies judge rs) (g.replies judgeBlind rs) :=
  (alike_refl null).replies built rs

def tagged : Guard := filled.perform (.check (.untracked 0x700068) (.ofName NameHasher.spread "int32_t"))

theorem run_tagged : vacant.Run [.allocate 64 (.ofName NameHasher.spread "struct outer") .opening,
    .check (.untracked 0x700068) (.ofName NameHasher.spread "int32_t")] tagged :=
  run_filled.append (.step trivial (by decide +kernel) (.done tagged))

def wrongTags : Cache.Chain :=
  let tag (type : String) : Cache.Tag :=
    .known (Cache.Tag.fingerprint (.ofName NameHasher.spread type)) 13
  ⟨[(List.replicate Cache.tagsPerLine (tag "int32_t")).set 0 (tag "double")]⟩

def misled : Guard :=
  tagged.withChains (tagged.heap.chains.modify (Reference.chain 0) fun _ => wrongTags)

def misleading : List Request := [
  .event (.check (.untracked 0x700068) (.ofName NameHasher.spread "int32_t")),
  .event (.check (.untracked 0x700038) (.ofName NameHasher.spread "int32_t")),
  .event (.check (.untracked 0x700034) (.ofName NameHasher.spread "double")),
  .event (.free 0x700030),
  .new 64 (.ofName NameHasher.spread "double") .opening]

theorem misled_matches_blind :
    Catalog.nested.build = .ok misled.registry ∧ 0 ∉ misled.heap.chains ∧
      List.Forall₂ (Matches misled.registry) (misled.replies judge misleading)
        (misled.replies judgeBlind misleading) ∧
      (misled.replies judge misleading).map (·.2.tally.registryLookups) = [1, 2, 3, 3, 3] ∧
      (misled.replies judgeBlind misleading).map (·.2.tally.registryLookups) = [2, 3, 4, 4, 4] := by
  have built : Catalog.nested.build = .ok misled.registry := by
    rw [misled, registry_withChains, run_tagged.registry_eq (create_kept created_vacant).1,
      (create_kept created_vacant).2.1]
    exact Catalog.nested_build
  have hr : tagged.Reachable := .of created_vacant (by decide +kernel) run_tagged
  have null : 0 ∉ misled.heap.chains := fun hzero => hr.null (Std.TreeMap.mem_modify.mp hzero)
  exact ⟨built, null, replies_match_blind built null misleading, by decide +kernel,
    by decide +kernel⟩

end Guard

end TypedHeap
