import MiniLlmcache.StoreTiling

/-!
# A request that waits for memory

vLLM asks `get_num_new_matched_tokens` in every step until it can allocate the blocks of the
request, so it may ask again after the lookup is resolved. `Waiting` is `Scheduling` with the
answers since then, up to `update_state_after_alloc`.

The code answers `(0, False)` to every further question, with hits or without. The tracker stays
as the first answer left it, so what the allocation does goes with the last answer
(`allocation_matches_last`) : after a further question nothing is loaded, and all lookup locks
are freed. `hits_kept_iff` : the answers are right exactly when each further question comes with
all hits computed.
-/

namespace MiniLlmcache

/-- A question about a request whose lookup is resolved, and its answer. -/
structure Asked where
  numComputedTokens : ℕ
  answer : Option ℕ × Bool
deriving DecidableEq

/-- The external tokens when `numComputedTokens` of `hits` are computed. -/
def announce (hits numComputedTokens : ℕ) : Option ℕ × Bool :=
  if numComputedTokens < hits then (some (hits - numComputedTokens), true) else (some 0, false)

/-- The connector and vLLM, with the answers from the one that resolved the lookup. -/
structure Waiting where
  scheduling : Scheduling
  asked : List Asked

namespace Waiting

variable (r : String)

def step (w : Waiting) (l : Scheduling.Label) : Option Waiting :=
  (w.scheduling.step r l).map fun scheduling =>
    match l with
    | .matched all prompt n reply =>
      ⟨scheduling, w.asked ++
        [⟨n, (w.scheduling.connector.getNumNewMatchedTokens r all prompt n reply).1⟩]⟩
    | _ => ⟨scheduling, w.asked⟩

/-- The request has no blocks : it is not allocated any, and no step schedules it. -/
def Waits (_ : Waiting) : Scheduling.Label → Prop
  | .alloc _ _ | .preempt => False
  | .build out _ => out.turn r = some .absent
  | .other hook => hook.requestId ≠ r
  | .grow _ | .matched _ _ _ _ => True

/-- A tracker whose lookup is not resolved, of a request without blocks. -/
structure Pending (tracker : RequestTracker) : Prop where
  lookupResolved : tracker.lookupResolved = false
  lmcacheHits : tracker.lmcacheHits = 0
  numStoredTokens : tracker.numStoredTokens = 0
  loadPending : tracker.loadPending = false
  allocSeen : tracker.allocSeen = false

/-- The question that resolves the lookup, when `n` tokens are computed. -/
def start (c : MiniConnector) (all prompt : List ℕ) (n : ℕ) (reply : Except Exc (Option ℕ)) :
    Waiting where
  scheduling := .resolved r c all prompt n reply
  asked := [⟨n, (c.getNumNewMatchedTokens r all prompt n reply).1⟩]

/-- The tracker as the answer `a` has it : the hits, and where the loaded range starts if `a`
announces one. -/
structure Waterline (hits : ℕ) (tracker : RequestTracker) (a : Asked) : Prop where
  lmcacheHits : tracker.lmcacheHits = hits
  numStoredTokens : tracker.numStoredTokens = hits
  vllmHits : ∀ n, a.answer = (some n, true) →
    tracker.vllmHits = a.numComputedTokens ∧ tracker.vllmHits + n = tracker.lmcacheHits
  loadPending : tracker.loadPending = false
  allocSeen : tracker.allocSeen = false

/-- Every question is answered with the hits that are not computed, and the tracker matches the
last answer. -/
structure Kept (hits : ℕ) (w : Waiting) : Prop where
  answers : ∀ a ∈ w.asked, a.answer = announce hits a.numComputedTokens
  waterline : ∃ tracker, w.scheduling.connector.trackers.get? r = some tracker ∧
    ∀ a, w.asked.getLast? = some a → Waterline hits tracker a

/-! ## What the later operations use -/

variable {r} {c : MiniConnector} {hits : ℕ} {tracker : RequestTracker} {a : Asked}

variable (r hits c a) in
/-- FREE_LOOKUP_LOCKS, when vLLM allocates with `n` external tokens : the locks of what is
computed, or all of them when nothing is loaded. -/
def FreesFor (blocks : List ℕ) (n : ℕ) : Prop :=
  let count := if 0 < n then min (a.numComputedTokens / c.chunkSize) (hits / c.chunkSize)
    else hits / c.chunkSize
  (c.updateStateAfterAlloc r blocks n).2 =
    if count = 0 then [] else [.freeLookupLocks ⟨r, count, c.worldSize⟩]

variable (r hits c a) in
/-- The RETRIEVE after that allocation : the `n` tokens from those computed on, or none. -/
def LoadsFor (blocks : List ℕ) (n : ℕ) : Prop :=
  ∃ tracker, (c.updateStateAfterAlloc r blocks n).1.trackers.get? r = some tracker ∧
    match (c.generateRetrieveOp tracker).1 with
    | none => n = 0
    | some op => 0 < n ∧ op.stop = hits ∧
      op.start + op.skipFirstNTokens = a.numComputedTokens ∧ op.stop = a.numComputedTokens + n

theorem Waterline.freed (h : Waterline hits tracker a) (hget : c.trackers.get? r = some tracker)
    (blocks : List ℕ) {n : ℕ} (hn : a.answer = (some n, decide (0 < n))) :
    FreesFor r c hits a blocks n := by
  simp only [FreesFor, MiniConnector.updateStateAfterAlloc, hget, h.allocSeen, h.loadPending,
    h.lmcacheHits, Bool.false_or, Bool.false_eq_true, if_false, decide_eq_true_eq]
  by_cases hpos : 0 < n
  · rw [decide_eq_true hpos] at hn
    simp only [if_pos hpos, (h.vllmHits n hn).1]
  · simp only [if_neg hpos]

theorem Waterline.loaded (h : Waterline hits tracker a) (hget : c.trackers.get? r = some tracker)
    (blocks : List ℕ) {n : ℕ} (hn : a.answer = (some n, decide (0 < n))) :
    LoadsFor r c hits a blocks n := by
  simp only [LoadsFor, MiniConnector.updateStateAfterAlloc, hget, h.allocSeen, h.loadPending,
    Bool.false_or, Bool.false_eq_true, if_false]
  refine ⟨_, OrderedDict.get?_set_self _ _ _, ?_⟩
  by_cases hpos : 0 < n
  · rw [decide_eq_true hpos] at hn
    obtain ⟨hcomputed, hrange⟩ := h.vllmHits n hn
    have hle := Nat.div_mul_le_self tracker.vllmHits c.chunkSize
    simp only [MiniConnector.generateRetrieveOp, decide_eq_true hpos, if_true]
    exact ⟨hpos, h.lmcacheHits, by omega, by omega⟩
  · simp only [MiniConnector.generateRetrieveOp, decide_eq_false hpos, Bool.false_eq_true,
      if_false]
    omega

/-! ## The invariant -/

/-- The tracker is as the first answer left it, and the further answers announce nothing. -/
structure Inv (r : String) (n hits : ℕ) (w : Waiting) (tracker : RequestTracker)
    (further : List Asked) : Prop where
  get : w.scheduling.connector.trackers.get? r = some tracker
  resolved : tracker.lookupResolved = true
  lmcacheHits : tracker.lmcacheHits = hits
  vllmHits : n < hits → tracker.vllmHits = n
  numStoredTokens : tracker.numStoredTokens = hits
  loadPending : tracker.loadPending = false
  allocSeen : tracker.allocSeen = false
  asked : w.asked = ⟨n, announce hits n⟩ :: further
  none : ∀ a ∈ further, a.answer = (some 0, false)

variable {w w' : Waiting} {n : ℕ} {further : List Asked}

theorem inv_start {reply : Except Exc (Option ℕ)}
    (hopen : ∀ tracker, c.trackers.get? r = some tracker → Pending tracker)
    (hreply : reply ≠ .ok none) (all prompt : List ℕ) (n : ℕ) :
    ∃ tracker, Inv r n (Scheduling.hitsOf reply) (start r c all prompt n reply) tracker [] := by
  have hinv : ∀ tracker : RequestTracker, Pending tracker → ∃ tracker',
      Inv r n (Scheduling.hitsOf reply)
        ⟨⟨c.setTracker r (MiniConnector.resolve tracker n reply).2, .fresh, all, [], []⟩,
          [⟨n, (MiniConnector.resolve tracker n reply).1⟩]⟩ tracker' [] := by
    intro tracker h
    rcases reply with e | _ | hits
    · exact ⟨_, OrderedDict.get?_set_self _ _ _, rfl, h.lmcacheHits, nofun, h.numStoredTokens,
        h.loadPending, h.allocSeen, rfl, nofun⟩
    · exact absurd rfl hreply
    · exact ⟨_, OrderedDict.get?_set_self _ _ _, rfl, rfl, fun _ => rfl, rfl, h.loadPending,
        h.allocSeen, rfl, nofun⟩
  unfold start Scheduling.resolved MiniConnector.getNumNewMatchedTokens
  rcases hget : c.trackers.get? r with _ | tracker
  · exact hinv { tokenIds := all } ⟨rfl, rfl, rfl, rfl, rfl⟩
  · have hpending := hopen tracker hget
    simp only [hpending.lookupResolved, Bool.false_eq_true, if_false]
    exact hinv tracker hpending

/-- A further question leaves the connector alone. -/
theorem Inv.ask (h : Inv r n hits w tracker further) (all prompt : List ℕ) (m : ℕ)
    (reply : Except Exc (Option ℕ)) :
    w.scheduling.connector.getNumNewMatchedTokens r all prompt m reply =
      ((some 0, false), w.scheduling.connector, []) := by
  simp only [MiniConnector.getNumNewMatchedTokens, h.get, h.resolved, if_true]

theorem inv_step (h : ∃ tracker further, Inv r n hits w tracker further) {l : Scheduling.Label}
    (hok : w.Waits r l) (hs : w.step r l = some w') :
    ∃ tracker further, Inv r n hits w' tracker further := by
  obtain ⟨tracker, further, h⟩ := h
  obtain ⟨s, hnext, rfl⟩ := Option.map_eq_some_iff.mp hs
  cases l with
  | grow tokens =>
    cases hnext
    refine ⟨{ tracker with tokenIds := tracker.tokenIds ++ tokens }, further, ?_, h.resolved,
      h.lmcacheHits, h.vllmHits, h.numStoredTokens, h.loadPending, h.allocSeen, h.asked, h.none⟩
    simp only [MiniConnector.grow, h.get]
    exact OrderedDict.get?_set_self _ _ _
  | matched all prompt m reply =>
    cases hnext
    refine ⟨tracker, further ++ [⟨m, (some 0, false)⟩], ?_, h.resolved, h.lmcacheHits, h.vllmHits,
      h.numStoredTokens, h.loadPending, h.allocSeen, ?_, ?_⟩
    · rw [h.ask]
      exact h.get
    · dsimp only
      rw [h.ask, h.asked, List.cons_append]
    · intro a ha
      rcases List.mem_append.mp ha with ha | ha
      · exact h.none a ha
      · rw [List.mem_singleton.mp ha]
  | alloc blocks m => exact hok.elim
  | preempt => exact hok.elim
  | build out table =>
    obtain ⟨hnew, hcached, hnone⟩ := SchedulerOutput.turn_spec hok
    simp only [Scheduling.step, show out.turn r = some .absent from hok, Option.some.injEq] at hnext
    obtain ⟨-, hafter⟩ := w.scheduling.connector.buildConnectorMeta_at r out h.get
    simp only [MiniConnector.updated, hnew, hcached, hnone, List.foldl_nil,
      MiniConnector.stepped] at hafter
    subst hnext
    exact ⟨_, further, hafter, h.resolved, h.lmcacheHits, h.vllmHits, h.numStoredTokens, rfl,
      h.allocSeen, h.asked, h.none⟩
  | other hook =>
    cases hnext
    obtain ⟨hsame, -, -⟩ := Scheduling.run_other w.scheduling.connector hok
    exact ⟨tracker, further, hsame.trans h.get, h.resolved, h.lmcacheHits, h.vllmHits,
      h.numStoredTokens, h.loadPending, h.allocSeen, h.asked, h.none⟩

/-- Whatever was answered last, the tracker matches it. -/
theorem Inv.waterline (h : Inv r n hits w tracker further) {a : Asked}
    (ha : w.asked.getLast? = some a) : Waterline hits tracker a := by
  refine ⟨h.lmcacheHits, h.numStoredTokens, fun m hm => ?_, h.loadPending, h.allocSeen⟩
  rw [h.asked] at ha
  rcases List.eq_nil_or_concat' further with rfl | ⟨init, b, rfl⟩
  · obtain rfl := Option.some.inj ha
    have hannounce : announce hits n = (some m, true) := hm
    rw [announce] at hannounce
    split_ifs at hannounce with hlt
    · simp only [Prod.mk.injEq, Option.some.injEq, and_true] at hannounce
      have hcomputed := h.vllmHits hlt
      refine ⟨hcomputed, ?_⟩
      rw [hcomputed, h.lmcacheHits]
      omega
    · cases hannounce
  · rw [← List.cons_append, List.getLast?_concat] at ha
    obtain rfl := Option.some.inj ha
    rw [h.none b (by simp)] at hm
    cases hm

/-- Every answer is a number of tokens, with the flag of a load when there are any. -/
theorem Inv.answer (h : Inv r n hits w tracker further) {a : Asked} (ha : a ∈ w.asked) :
    ∃ m, a.answer = (some m, decide (0 < m)) := by
  rw [h.asked] at ha
  rcases List.mem_cons.mp ha with rfl | ha
  · dsimp only [announce]
    split_ifs with hlt
    · exact ⟨hits - n, by rw [decide_eq_true (Nat.sub_pos_of_lt hlt)]⟩
    · exact ⟨0, rfl⟩
  · exact ⟨0, h.none a ha⟩

theorem inv_run {all prompt : List ℕ} {reply : Except Exc (Option ℕ)}
    (hopen : ∀ tracker, c.trackers.get? r = some tracker → Pending tracker)
    (hreply : reply ≠ .ok none) {labels : List Scheduling.Label}
    (hrun : Run (step r) (Waits r) (start r c all prompt n reply) labels w) :
    ∃ tracker further, Inv r n (Scheduling.hitsOf reply) w tracker further := by
  obtain ⟨tracker, hstart⟩ := inv_start hopen hreply all prompt n
  exact hrun.invariant
    (fun w => ∃ tracker further, Inv r n (Scheduling.hitsOf reply) w tracker further)
    ⟨tracker, [], hstart⟩ fun _ _ _ hi hok hs => inv_step hi hok hs

/-- The allocation that ends the wait goes with the last answer : vLLM passes the `m` tokens it
announced, the locks of what is not loaded are freed, and the RETRIEVE loads these tokens. -/
theorem allocation_matches_last {all prompt : List ℕ} {reply : Except Exc (Option ℕ)}
    (hopen : ∀ tracker, c.trackers.get? r = some tracker → Pending tracker)
    (hreply : reply ≠ .ok none) {labels : List Scheduling.Label}
    (hrun : Run (step r) (Waits r) (start r c all prompt n reply) labels w) (blocks : List ℕ) :
    ∃ tracker a m, w.asked.getLast? = some a ∧ a.answer = (some m, decide (0 < m)) ∧
      Waterline (Scheduling.hitsOf reply) tracker a ∧
      w.scheduling.connector.trackers.get? r = some tracker ∧
      FreesFor r w.scheduling.connector (Scheduling.hitsOf reply) a blocks m ∧
      LoadsFor r w.scheduling.connector (Scheduling.hitsOf reply) a blocks m := by
  obtain ⟨tracker, further, h⟩ := inv_run hopen hreply hrun
  have hne : w.asked ≠ [] := by simp [h.asked]
  have hlast := List.getLast?_eq_some_getLast hne
  obtain ⟨m, hm⟩ := h.answer (List.getLast_mem hne)
  have hline := h.waterline hlast
  exact ⟨tracker, _, m, hlast, hm, hline, h.get, hline.freed h.get blocks hm,
    hline.loaded h.get blocks hm⟩

/-- While a request waits, its hits are announced in every answer exactly when no further question
leaves any : the code answers `(0, False)` to each of them. -/
theorem hits_kept_iff {all prompt : List ℕ} {reply : Except Exc (Option ℕ)}
    (hopen : ∀ tracker, c.trackers.get? r = some tracker → Pending tracker)
    (hreply : reply ≠ .ok none) {labels : List Scheduling.Label}
    (hrun : Run (step r) (Waits r) (start r c all prompt n reply) labels w) :
    w.Kept r (Scheduling.hitsOf reply) ↔
      ∀ a ∈ w.asked.tail, Scheduling.hitsOf reply ≤ a.numComputedTokens := by
  obtain ⟨tracker, further, h⟩ := inv_run hopen hreply hrun
  set hits := Scheduling.hitsOf reply
  have hone : ∀ a ∈ further, a.answer = announce hits a.numComputedTokens ↔
      hits ≤ a.numComputedTokens := by
    intro a ha
    rw [h.none a ha, announce]
    split_ifs with hlt
    · simp [hlt]
    · simpa using hlt
  rw [h.asked, List.tail_cons]
  constructor
  · intro hk a ha
    refine (hone a ha).mp (hk.answers a ?_)
    rw [h.asked]
    exact List.mem_cons_of_mem _ ha
  · intro hall
    refine ⟨fun a ha => ?_, tracker, h.get, fun a ha => h.waterline ha⟩
    rw [h.asked] at ha
    rcases List.mem_cons.mp ha with rfl | ha
    · rfl
    · exact (hone a ha).mpr (hall a ha)

/-- Request `a` has two chunks of hits and no tokens computed. It is asked about twice before it is
allocated its blocks : the second answer is that there are no hits. The allocation then frees the
locks of both chunks, and no RETRIEVE follows. -/
theorem second_answer_loses_hits : ∃ w : Waiting,
    Run (step "a") (Waits "a")
      (start "a" Engine.sample.connector [1, 2, 3, 4, 5] [1, 2, 3, 4, 5] 0 (.ok (some 4)))
      [.matched [1, 2, 3, 4, 5] [1, 2, 3, 4, 5] 0 (.ok (some 4))] w ∧
    w.asked.map Asked.answer = [(some 4, true), (some 0, false)] ∧ ¬w.Kept "a" 4 ∧
    let alloc := w.scheduling.connector.updateStateAfterAlloc "a" [4, 5, 6, 7, 0] 0
    alloc.2 = [.freeLookupLocks ⟨"a", 2, 1⟩] ∧
    (alloc.1.retrieveOps alloc.1.trackers.items).1 = [] := by
  refine ⟨_, .snoc .refl trivial rfl, rfl, fun h => ?_, rfl, rfl⟩
  have hsecond := h.answers ⟨0, (some 0, false)⟩ (List.mem_cons_of_mem _ List.mem_cons_self)
  exact absurd hsecond (by decide)

/-- With four tokens computed in the meantime there is nothing to announce. -/
theorem hits_kept_iff_sample : ∃ w : Waiting,
    w.asked.map Asked.answer = [(some 4, true), (some 0, false)] ∧ w.Kept "a" 4 := by
  have hrun : Run (step "a") (Waits "a")
      (start "a" Engine.sample.connector [1, 2, 3, 4, 5] [1, 2, 3, 4, 5] 0 (.ok (some 4)))
      [.matched [1, 2, 3, 4, 5] [1, 2, 3, 4, 5] 4 (.ok (some 4))] _ := .snoc .refl trivial rfl
  have hreply : (.ok (some 4) : Except Exc (Option ℕ)) ≠ .ok none := nofun
  have hopen : ∀ tracker, Engine.sample.connector.trackers.get? "a" = some tracker →
    Pending tracker := fun _ h => by cases h
  refine ⟨_, rfl, (hits_kept_iff hopen hreply hrun).mpr fun a ha => ?_⟩
  obtain rfl := List.mem_singleton.mp ha
  exact Nat.le_refl 4

end Waiting

end MiniLlmcache
