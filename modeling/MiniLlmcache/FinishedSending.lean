import MiniLlmcache.WorkerConnector

/-!
# When blocks are given back

`get_finished` reports a request in `finished_sending`, and vLLM gives its KV blocks to other
requests. `getFinished_sending` : what it reports has no STORE outstanding, because every such
STORE is in `store_futures`. It does not look at `load_futures` : a request aborted while its
RETRIEVE is in flight is reported at once (`aborted_load_reported`), and the thread goes on to
scatter into blocks that belong to somebody else.

`sending_settled_iff` : in runs that hand over no request with a RETRIEVE in flight, a call
reports only requests without a transfer exactly when the same holds of the call.
-/

namespace MiniLlmcache

namespace WorkerConnector

variable {e : Engine} {w w' : WorkerConnector e}

/-- A STORE of request `r` is outstanding. -/
def Storing (w : WorkerConnector e) (r : String) : Prop :=
  ∃ c ∈ w.stores, c.requestId = r ∧ c.replied = false

/-- A load of request `r` is outstanding. -/
def Loading (w : WorkerConnector e) (r : String) : Prop :=
  ∃ l ∈ w.loads, l.requestId = r ∧ l.done = false

instance (w : WorkerConnector e) (r : String) : Decidable (w.Storing r) := by
  unfold Storing
  infer_instance

instance (w : WorkerConnector e) (r : String) : Decidable (w.Loading r) := by
  unfold Loading
  infer_instance

/-! ## STORE futures -/

/-- Place `i` is among the futures of request `r`. -/
def Tracked (futures : OrderedDict String (List ℕ)) (r : String) (i : ℕ) : Prop :=
  ∃ fs, futures.get? r = some fs ∧ i ∈ fs

theorem tracked_addFuture {futures : OrderedDict String (List ℕ)} {r r' : String} {i j : ℕ} :
    Tracked (addFuture futures r' j) r i ↔ Tracked futures r i ∨ (r' = r ∧ i = j) := by
  unfold Tracked addFuture
  rw [OrderedDict.get?_set]
  split_ifs with h
  · subst h
    cases futures.get? r' with
    | none => simp
    | some fs => simp
  · simp [h]

theorem tracked_addFutures {r : String} {i : ℕ} : ∀ (calls : List StoreCall) (n : ℕ)
    {futures : OrderedDict String (List ℕ)}, Tracked (addFutures futures n calls) r i ↔
      Tracked futures r i ∨ ∃ j c, calls[j]? = some c ∧ c.requestId = r ∧ i = n + j
  | [], _, _ => by simp [addFutures]
  | c :: calls, n, futures => by
    rw [addFutures, tracked_addFutures calls (n + 1), tracked_addFuture, or_assoc]
    refine or_congr_right ⟨?_, ?_⟩
    · rintro (⟨hr, hi⟩ | ⟨j, c', hj, hr, hi⟩)
      · exact ⟨0, c, rfl, hr, hi⟩
      · exact ⟨j + 1, c', hj, hr, by omega⟩
    · rintro ⟨j, c', hj, hr, hi⟩
      cases j with
      | zero =>
        cases hj
        exact Or.inl ⟨hr, hi⟩
      | succ j => exact Or.inr ⟨j, c', hj, hr, by omega⟩

theorem tracked_liveStores {r : String} {i : ℕ} :
    Tracked w.liveStores r i ↔ Tracked w.storeFutures r i ∧ w.storeDone i = false := by
  unfold Tracked liveStores
  rw [OrderedDict.get?_prune]
  constructor
  · rintro ⟨live, hlive, hi⟩
    obtain ⟨fs, hfs, h⟩ := Option.bind_eq_some_iff.mp hlive
    dsimp only at h
    split_ifs at h with hnil
    cases h
    obtain ⟨hmem, hdone⟩ := List.mem_filter.mp hi
    exact ⟨⟨fs, hfs, hmem⟩, by simpa using hdone⟩
  · rintro ⟨⟨fs, hfs, hmem⟩, hdone⟩
    have hi : i ∈ fs.filter fun i => !w.storeDone i := List.mem_filter.mpr ⟨hmem, by simp [hdone]⟩
    refine ⟨_, ?_, hi⟩
    rw [hfs, Option.bind_some]
    exact if_neg (List.ne_nil_of_mem hi)

/-- What is left has futures that are not done. -/
theorem contains_liveStores {r : String} :
    w.liveStores.contains r = true ↔ ∃ i, Tracked w.liveStores r i := by
  rw [OrderedDict.contains, Option.isSome_iff_exists]
  constructor
  · rintro ⟨live, hlive⟩
    obtain ⟨fs, -, h⟩ := Option.bind_eq_some_iff.mp (OrderedDict.get?_prune _ _ r ▸ hlive)
    dsimp only at h
    split_ifs at h with hnil
    cases h
    obtain ⟨i, hi⟩ := List.exists_mem_of_ne_nil _ hnil
    exact ⟨i, _, hlive, hi⟩
  · rintro ⟨i, live, hlive, -⟩
    exact ⟨live, hlive⟩

/-- `store_futures` has the STOREs of each request, and all that are outstanding. -/
structure Tracks (w : WorkerConnector e) : Prop where
  live : ∀ i c, w.stores[i]? = some c → c.replied = false → Tracked w.storeFutures c.requestId i
  own : ∀ r i, Tracked w.storeFutures r i → ∃ c, w.stores[i]? = some c ∧ c.requestId = r

theorem tracks_new (kv : KVCache e.transfer.blockNbytes) : (new kv).Tracks where
  live i c h := by cases h
  own r i h := by
    obtain ⟨fs, hfs, -⟩ := h
    cases hfs

/-- The STOREs of the connector do not raise. -/
theorem submitStores_returns : ∀ {ms : List ReqMeta}, (∀ x ∈ ms, e.StoreOp x.op) →
    (w.submitStores ms).2 = none
  | [], _ => rfl
  | m :: ms, h => by
    obtain ⟨chunks, hchunks⟩ := (h m List.mem_cons_self).toHost w.kv
    have ih := submitStores_returns fun x hx => h x (List.mem_cons_of_mem m hx)
    simp only [submitStores, hchunks]
    exact ih

theorem Tracks.step {lab : WorkerLabel} (h : w.Tracks) (hsaves : lab.Saves e)
    (hs : w.Does lab w') : w'.Tracks := by
  cases hs with
  | @saved m calls hcalls =>
    constructor
    · intro i c hi hc
      rw [tracked_addFutures]
      rcases Nat.lt_or_ge i w.stores.length with hlt | hge
      · rw [List.getElem?_append_left hlt] at hi
        exact Or.inl (h.live i c hi hc)
      · rw [List.getElem?_append_right hge] at hi
        exact Or.inr ⟨_, c, hi, rfl, by omega⟩
    · intro r i hi
      rcases (tracked_addFutures _ _).mp hi with hi | ⟨j, c, hj, hr, rfl⟩
      · obtain ⟨c, hc, hr⟩ := h.own r i hi
        exact ⟨c, by rw [List.getElem?_append_left (List.getElem?_eq_some_iff.mp hc).1, hc], hr⟩
      · refine ⟨c, ?_, hr⟩
        rw [List.getElem?_append_right (Nat.le_add_right _ _), Nat.add_sub_cancel_left, hj]
  | @raised m calls x hcalls =>
    have hnone := submitStores_returns (w := w) hsaves
    rw [hcalls] at hnone
    cases hnone
  | getFinished ids =>
    constructor
    · intro i c hi hc
      have hstore : w.stores[i]? = some c := hi
      refine tracked_liveStores.mpr ⟨h.live i c hi hc, ?_⟩
      rw [storeDone, hstore, Option.any_some, hc]
    · intro r i hi
      exact h.own r i (tracked_liveStores.mp hi).1
  | @storeReply j c₀ hget =>
    constructor
    · intro i c hi hc
      rw [List.getElem?_set] at hi
      split_ifs at hi with hj
      · cases hi
        cases hc
      · exact h.live i c hi hc
    · intro r i hi
      obtain ⟨c, hc, hr⟩ := h.own r i hi
      rw [List.getElem?_set]
      split_ifs with hj hlt
      · subst hj
        rw [hget] at hc
        cases hc
        exact ⟨_, rfl, hr⟩
      · subst hj
        exact absurd (List.getElem?_eq_some_iff.mp hget).1 hlt
      · exact ⟨c, hc, hr⟩
  | _ => exact ⟨h.live, h.own⟩

/-- A request with an outstanding STORE keeps a future that is not done. -/
theorem Tracks.storing_iff (h : w.Tracks) {r : String} :
    w.Storing r ↔ w.liveStores.contains r = true := by
  rw [contains_liveStores]
  constructor
  · rintro ⟨c, hc, rfl, hr⟩
    obtain ⟨i, hi⟩ := List.mem_iff_getElem?.mp hc
    refine ⟨i, tracked_liveStores.mpr ⟨h.live i c hi hr, ?_⟩⟩
    rw [storeDone, hi, Option.any_some, hr]
  · rintro ⟨i, hi⟩
    obtain ⟨htracked, hdone⟩ := tracked_liveStores.mp hi
    obtain ⟨c, hc, rfl⟩ := h.own r i htracked
    rw [storeDone, hc, Option.any_some] at hdone
    exact ⟨c, List.mem_of_getElem? hc, rfl, hdone⟩

/-- What `get_finished` reports as sent : the finished requests without an outstanding STORE. -/
theorem Tracks.mem_sending (h : w.Tracks) {ids : Finset String} {r : String} :
    r ∈ (w.getFinished ids).1.1 ↔ (r ∈ w.pendingSends ∨ r ∈ ids) ∧ ¬w.Storing r := by
  simp only [getFinished, Finset.mem_filter, Finset.mem_union, h.storing_iff, Bool.not_eq_true]

/-! ## Loads -/

/-- A load that is outstanding was, or has just been submitted. -/
theorem Does.loading {lab : WorkerLabel} (hs : w.Does lab w') {r : String} (h : w'.Loading r) :
    w.Loading r ∨
      ∃ m, lab = .startLoadKv m ∧ ∃ x ∈ opsOf .retrieve m.requests, x.requestId = r := by
  obtain ⟨l', hmem, hr, hd⟩ := h
  obtain ⟨i, hi⟩ := List.mem_iff_getElem?.mp hmem
  rcases hs.load hi with hsame | ⟨m, hlab, -, x, hx, rfl⟩ | ⟨l, hl, hm⟩
  · exact Or.inl ⟨l', List.mem_of_getElem? hsame, hr, hd⟩
  · exact Or.inr ⟨m, hlab, x, List.mem_of_getElem? hx, hr⟩
  · refine Or.inl ⟨l, List.mem_of_getElem? hl, hm.requestId_eq.1 ▸ hr, ?_⟩
    rw [← Bool.not_eq_true] at hd ⊢
    exact fun hdone => hd (hm.done hdone)

/-- No request is handed over with a load in flight, and none is loaded for a request that was
handed over. -/
def Settled (w : WorkerConnector e) : WorkerLabel → Prop
  | .startLoadKv m => ∀ x ∈ opsOf .retrieve m.requests, x.requestId ∉ w.pendingSends
  | .getFinished ids => ∀ r ∈ ids, ¬w.Loading r
  | _ => True

instance (w : WorkerConnector e) : ∀ lab, Decidable (w.Settled lab)
  | .startLoadKv m =>
    inferInstanceAs (Decidable (∀ x ∈ opsOf .retrieve m.requests, x.requestId ∉ w.pendingSends))
  | .getFinished ids => inferInstanceAs (Decidable (∀ r ∈ ids, ¬w.Loading r))
  | .waitForSave _ | .storeReply _ | .loadReply _ _ | .finishLoad _ | .raises _ | .kernel _
  | .forward _ => isTrue trivial

/-- The steps of runs with the operations of the connector, that are `Settled`. -/
def Orderly (w : WorkerConnector e) (lab : WorkerLabel) : Prop := lab.Generated e ∧ w.Settled lab

/-- What waits for its STOREs has no load in flight. -/
structure SendInv (w : WorkerConnector e) : Prop where
  tracks : w.Tracks
  pending : ∀ r ∈ w.pendingSends, ¬w.Loading r

theorem SendInv.step {lab : WorkerLabel} (h : w.SendInv) (hok : w.Orderly lab)
    (hs : w.Does lab w') : w'.SendInv := by
  refine ⟨h.tracks.step hok.1.saves hs, fun r hr hload => ?_⟩
  rcases hs.loading hload with hold | ⟨m, rfl, x, hx, rfl⟩
  · cases hs with
    | getFinished ids =>
      rcases Finset.mem_union.mp (Finset.mem_sdiff.mp hr).1 with hr | hr
      · exact h.pending r hr hold
      · exact hok.2 r hr hold
    | _ => exact h.pending r hr hold
  · cases hs
    exact hok.2 x hx hr

/-- A state that such a run reaches. -/
def OrderlyReachable (w : WorkerConnector e) : Prop :=
  ∃ kv labs, Run WorkerConnector.step Orderly (new kv) labs w

theorem OrderlyReachable.sendInv (h : w.OrderlyReachable) : w.SendInv := by
  obtain ⟨kv, labs, hrun⟩ := h
  refine hrun.invariant SendInv ⟨tracks_new kv, fun r hr => ?_⟩ fun _ _ _ hi hok hs =>
    hi.step hok (does_of_step hs)
  exact absurd hr (Finset.notMem_empty r)

/-- Blocks under a running transfer : after a run that hands over no request with a load in
flight, a call reports only requests with no STORE and no load outstanding, exactly if each
request it is handed has a STORE outstanding or no load. -/
theorem sending_settled_iff (h : w.OrderlyReachable) (ids : Finset String) :
    (∀ r ∈ (w.getFinished ids).1.1, ¬w.Storing r ∧ ¬w.Loading r) ↔
      ∀ r ∈ ids, ¬w.Storing r → ¬w.Loading r := by
  have hinv := h.sendInv
  constructor
  · intro hall r hr hstore
    exact (hall r (hinv.tracks.mem_sending.mpr ⟨Or.inr hr, hstore⟩)).2
  · intro hids r hr
    obtain ⟨hmem, hstore⟩ := hinv.tracks.mem_sending.mp hr
    refine ⟨hstore, ?_⟩
    rcases hmem with hmem | hmem
    · exact hinv.pending r hmem
    · exact hids r hmem hstore

/-- The load of request `b` fails, and `b` is handed over when its thread has ended. -/
theorem sending_settled_iff_sample : ∃ w : WorkerConnector .sample, w.OrderlyReachable ∧
    (w.getFinished {"b"}).1.1 = {"b"} ∧
    ∀ r ∈ (w.getFinished {"b"}).1.1, ¬w.Storing r ∧ ¬w.Loading r := by
  have hrun : (replay step (fun w lab => decide (w.Settled lab)) (new sampleKV)
      [.startLoadKv sampleMetadata, .loadReply 0 (.error .keyError), .finishLoad 0,
        .finishLoad 0]).map (fun w => decide ((w.getFinished {"b"}).1.1 = {"b"} ∧
        ∀ r ∈ ({"b"} : Finset String), ¬w.Storing r → ¬w.Loading r)) = some true := by decide
  obtain ⟨w, hw, he⟩ := Option.map_eq_some_iff.mp hrun
  obtain ⟨hsent, hids⟩ := of_decide_eq_true he
  have hreach : w.OrderlyReachable := by
    refine ⟨sampleKV, _,
      ((run_of_replay hw).mono fun _ _ hok => of_decide_eq_true hok).and_label ?_⟩
    simp only [List.forall_mem_cons, List.not_mem_nil, false_implies, implies_true, and_true]
    exact ⟨sampleMetadata_generated, trivial, trivial, trivial⟩
  exact ⟨w, hreach, hsent, (sending_settled_iff hreach {"b"}).mpr hids⟩

/-- Request `b` is aborted while its RETRIEVE is in flight : it is reported at once. -/
theorem aborted_load_reported : ∃ w : WorkerConnector .sample,
    Run step (fun _ lab => lab.Generated .sample) (new sampleKV) [.startLoadKv sampleMetadata] w ∧
    "b" ∈ (w.getFinished {"b"}).1.1 ∧ w.Loading "b" := by
  refine ⟨(new sampleKV).startLoadKv sampleMetadata, ?_, by decide, by decide⟩
  exact .cons sampleMetadata_generated rfl .refl

end WorkerConnector

end MiniLlmcache
