import MiniLlmcache.FinishedRecving
import MiniLlmcache.FinishedSending

/-!
# What the calls of `get_finished` report

`Reporting` is the worker side with a record of each `get_finished` call : what it was passed and
returned, and the transfers at that moment. In a run with one load of a request in flight at a
time, from its submission to the call that returns it, and each id passed once, the record of
every call says of the calls before it (`Report.Exact`) : the ids in `finished_sending` are those
passed so far whose STOREs are all done now, and were not at any call since they were passed; the
ids in `finished_recving` are those of the loads that are done now and were not at any call before.
`reports_exact` puts the calls of a run together.
-/

namespace MiniLlmcache

/-- One call of `get_finished`, with the transfers submitted when it was made. -/
structure Report where
  finishedReqIds : Finset String
  sending : Finset String
  recving : Finset String
  stores : List StoreCall
  loads : List LoadCall

namespace Report

/-- All STOREs submitted for `r` are done. -/
def Stored (c : Report) (r : String) : Prop :=
  ∀ s ∈ c.stores, s.requestId = r → s.replied = true

/-- Load `i` is one of request `r`, and done. -/
def Loaded (c : Report) (r : String) (i : ℕ) : Prop :=
  ∃ l, c.loads[i]? = some l ∧ l.requestId = r ∧ l.done = true

/-- Since `r` was passed its STOREs were not all done at any call. -/
def Awaits (reports : List Report) (r : String) : Prop :=
  ∃ before b after, reports = before ++ b :: after ∧ r ∈ b.finishedReqIds ∧
    ∀ c ∈ b :: after, ¬c.Stored r

/-- From the call that was passed `r` on, this is the first at which its STOREs are done. -/
def FirstStored (earlier : List Report) (c : Report) (r : String) : Prop :=
  c.Stored r ∧ (r ∈ c.finishedReqIds ∨ Awaits earlier r)

/-- This is the first call at which load `i`, of request `r`, is done. -/
def FirstLoaded (earlier : List Report) (c : Report) (r : String) (i : ℕ) : Prop :=
  c.Loaded r i ∧ ∀ b ∈ earlier, ¬b.Loaded r i

/-- The call returns what is finished for the first time, and one load for each id it returns. -/
structure Exact (earlier : List Report) (c : Report) : Prop where
  sending : ∀ r, r ∈ c.sending ↔ FirstStored earlier c r
  recving : ∀ r, r ∈ c.recving ↔ ∃ i, FirstLoaded earlier c r i
  unique : ∀ {r i j}, FirstLoaded earlier c r i → FirstLoaded earlier c r j → i = j

theorem awaits_snoc {reports : List Report} {c : Report} {r : String} :
    Awaits (reports ++ [c]) r ↔ (Awaits reports r ∨ r ∈ c.finishedReqIds) ∧ ¬c.Stored r := by
  constructor
  · rintro ⟨before, b, after, heq, hr, hall⟩
    rcases List.eq_nil_or_concat' after with rfl | ⟨after, d, rfl⟩
    · obtain ⟨-, hlast⟩ := List.append_inj' heq rfl
      obtain rfl := List.singleton_inj.mp hlast
      exact ⟨Or.inr hr, hall c List.mem_cons_self⟩
    · rw [← List.cons_append, ← List.append_assoc] at heq
      obtain ⟨hinit, hlast⟩ := List.append_inj' heq rfl
      obtain rfl := List.singleton_inj.mp hlast
      refine ⟨Or.inl ⟨before, b, after, hinit, hr, fun d hd => hall d ?_⟩, hall c (by simp)⟩
      rw [← List.cons_append]
      exact List.mem_append_left _ hd
  · rintro ⟨⟨before, b, after, rfl, hr, hall⟩ | hr, hnot⟩
    · refine ⟨before, b, after ++ [c], by simp, hr, fun d hd => ?_⟩
      rw [← List.cons_append] at hd
      rcases List.mem_append.mp hd with hd | hd
      · exact hall d hd
      · exact List.mem_singleton.mp hd ▸ hnot
    · refine ⟨reports, c, [], rfl, hr, fun d hd => ?_⟩
      exact List.mem_singleton.mp hd ▸ hnot

theorem Awaits.passed {reports : List Report} {r : String} (h : Awaits reports r) :
    ∃ b ∈ reports, r ∈ b.finishedReqIds := by
  obtain ⟨before, b, after, rfl, hr, -⟩ := h
  exact ⟨b, by simp, hr⟩

end Report

/-- The worker side, with the calls of `get_finished` so far. -/
structure Reporting (e : Engine) where
  worker : WorkerConnector e
  reports : List Report

namespace WorkerConnector

variable {e : Engine}

def report (w : WorkerConnector e) (ids : Finset String) : Report :=
  ⟨ids, (w.getFinished ids).1.1, (w.getFinished ids).1.2, w.stores, w.loads⟩

variable {w w' : WorkerConnector e}

theorem stored_report {ids : Finset String} {r : String} :
    (w.report ids).Stored r ↔ ¬w.Storing r := by
  simp only [Report.Stored, Storing, report, not_exists, not_and, Bool.not_eq_false]

/-- Load `i` is one of request `r`. -/
def LoadOf (w : WorkerConnector e) (r : String) (i : ℕ) : Prop :=
  (w.loads.map LoadCall.requestId)[i]? = some r

theorem loaded_report {ids : Finset String} {r : String} {i : ℕ} (h : w.LoadOf r i) :
    (w.report ids).Loaded r i ↔ w.loadDone i = true := by
  rw [LoadOf, List.getElem?_map, Option.map_eq_some_iff] at h
  obtain ⟨l, hl, hr⟩ := h
  simp only [Report.Loaded, report, hl, loadDone, Option.any_some, Option.some.injEq]
  constructor
  · rintro ⟨l, rfl, -, hdone⟩
    exact hdone
  · exact fun hdone => ⟨l, rfl, hr, hdone⟩

theorem loadOf_of_loaded {ids : Finset String} {r : String} {i : ℕ}
    (h : (w.report ids).Loaded r i) : w.LoadOf r i := by
  obtain ⟨l, hl, rfl, -⟩ := h
  rw [LoadOf, List.getElem?_map]
  exact congrArg (Option.map _) hl

/-- The requests of the loads : only `start_load_kv` adds some. -/
theorem Does.requestIds {lab : WorkerLabel} (hs : w.Does lab w') :
    w'.loads.map LoadCall.requestId = w.loads.map LoadCall.requestId ++
      match lab with
      | .startLoadKv m => (opsOf .retrieve m.requests).map ReqMeta.requestId
      | _ => [] := by
  have hset : ∀ {i : ℕ} {l l' : LoadCall}, w.loads[i]? = some l → l'.requestId = l.requestId →
      (w.loads.set i l').map LoadCall.requestId = w.loads.map LoadCall.requestId ++ [] := by
    intro i l l' hget hreq
    obtain ⟨hi, rfl⟩ := List.getElem?_eq_some_iff.mp hget
    rw [List.map_set, hreq, List.append_nil, ← List.getElem_map LoadCall.requestId (h := by simpa),
      List.set_getElem_self]
  cases hs with
  | startLoadKv m =>
    simp only [WorkerConnector.startLoadKv, List.map_append, List.map_map]
    rfl
  | loadReply reply hget _ => exact hset hget rfl
  | finishLoad hget hm | raises hget hm | kernel _ hget hm => exact hset hget hm.requestId_eq.1
  | _ => exact (List.append_nil _).symm

/-- `load_futures` has a load after `start_load_kv` if it had it before, or the step submits it. -/
theorem get?_startLoadKv {m : Metadata} (hfresh : w.Fresh (.startLoadKv m)) {r : String} {i : ℕ} :
    (w.startLoadKv m).loadFutures.get? r = some i ↔ w.loadFutures.get? r = some i ∨
      w.loads.length ≤ i ∧ (w.startLoadKv m).LoadOf r i := by
  set ids := (opsOf .retrieve m.requests).map ReqMeta.requestId with hids
  have hkeys : (ids.zipIdx w.loads.length).map Prod.fst = ids := List.zipIdx_map_fst _ _
  have hnodup : ((ids.zipIdx w.loads.length).map Prod.fst).Nodup := by
    rw [hkeys]
    exact m.nodup .retrieve
  have hold : w.loadFutures.get? r = some i → r ∉ ids := by
    intro hget hmem
    obtain ⟨x, hx, rfl⟩ := List.mem_map.mp hmem
    rw [hfresh x hx] at hget
    cases hget
  have hnew : w.loads.length ≤ i → ((w.startLoadKv m).LoadOf r i ↔
      ids[i - w.loads.length]? = some r) := by
    intro hle
    rw [LoadOf, Does.requestIds (.startLoadKv m), List.getElem?_append_right (by simpa),
      List.length_map, hids]
  have hget : (w.startLoadKv m).loadFutures.get? r = some i ↔
      (r, i) ∈ ids.zipIdx w.loads.length ∨ r ∉ (ids.zipIdx w.loads.length).map Prod.fst ∧
        w.loadFutures.get? r = some i := OrderedDict.get?_setAll_of_nodup _ hnodup
  rw [hget, hkeys, List.mk_mem_zipIdx_iff_le_and_getElem?_sub, and_congr_right hnew,
    and_iff_right_of_imp hold, or_comm]

theorem length_le_of_does {lab : WorkerLabel} (hs : w.Does lab w') :
    w.loads.length ≤ w'.loads.length := by
  have hlen := congrArg List.length hs.requestIds
  simp only [List.length_append, List.length_map] at hlen
  omega

theorem LoadOf.lt {r : String} {i : ℕ} (h : w.LoadOf r i) : i < w.loads.length := by
  have hlt := (List.getElem?_eq_some_iff.mp h).1
  rwa [List.length_map] at hlt

/-- A load that was there before a step is one of the same request after it. -/
theorem Does.loadOf_iff {lab : WorkerLabel} (hs : w.Does lab w') {r : String} {i : ℕ}
    (hi : i < w.loads.length) : w'.LoadOf r i ↔ w.LoadOf r i := by
  rw [LoadOf, LoadOf, hs.requestIds, List.getElem?_append_left (by simpa)]

end WorkerConnector

namespace Reporting

open WorkerConnector

variable {e : Engine}

def new (kv : KVCache e.transfer.blockNbytes) : Reporting e := ⟨.new kv, []⟩

def step (s : Reporting e) (lab : WorkerLabel) : Option (Reporting e) :=
  (s.worker.step lab).map fun worker =>
    match lab with
    | .getFinished ids => ⟨worker, s.reports ++ [s.worker.report ids]⟩
    | _ => ⟨worker, s.reports⟩

/-- The ids passed were not passed before. -/
def PassesNew (s : Reporting e) : WorkerLabel → Prop
  | .getFinished ids => ∀ r ∈ ids, ∀ b ∈ s.reports, r ∉ b.finishedReqIds
  | _ => True

instance (s : Reporting e) : ∀ lab, Decidable (s.PassesNew lab)
  | .getFinished ids =>
    inferInstanceAs (Decidable (∀ r ∈ ids, ∀ b ∈ s.reports, r ∉ b.finishedReqIds))
  | .startLoadKv _ | .waitForSave _ | .storeReply _ | .loadReply _ _ | .finishLoad _ | .raises _
  | .kernel _ | .forward _ => isTrue trivial

/-- The STOREs are those of the connector, a request has one load in flight at a time, and an id is
passed once. -/
def Paced (s : Reporting e) (lab : WorkerLabel) : Prop :=
  lab.Saves e ∧ s.worker.Fresh lab ∧ s.PassesNew lab

structure Inv (s : Reporting e) : Prop where
  tracks : s.worker.Tracks
  pending : ∀ r, r ∈ s.worker.pendingSends ↔ Report.Awaits s.reports r
  inFlight : ∀ r i, s.worker.loadFutures.get? r = some i ↔
    s.worker.LoadOf r i ∧ ∀ b ∈ s.reports, ¬b.Loaded r i
  older : ∀ b ∈ s.reports, b.loads.length ≤ s.worker.loads.length
  returned : ∀ b ∈ s.reports, ∀ r ∈ b.sending,
    r ∉ s.worker.pendingSends ∧ ∃ b' ∈ s.reports, r ∈ b'.finishedReqIds
  exact : ∀ (k : ℕ) (c : Report), s.reports[k]? = some c → c.Exact (s.reports.take k)
  disjoint : s.reports.Pairwise fun b c => Disjoint b.sending c.sending

theorem inv_new (kv : KVCache e.transfer.blockNbytes) : (new kv).Inv where
  tracks := tracks_new kv
  pending r := by
    refine ⟨fun h => absurd h (Finset.notMem_empty r), fun h => ?_⟩
    obtain ⟨b, hb, -⟩ := h.passed
    exact absurd hb List.not_mem_nil
  inFlight r i := by
    refine ⟨fun h => ?_, fun h => ?_⟩
    · cases h
    · exact absurd h.1.lt (Nat.not_lt_zero i)
  older b hb := absurd hb List.not_mem_nil
  returned b hb := absurd hb List.not_mem_nil
  exact k c h := by cases h
  disjoint := List.Pairwise.nil

variable {s s' : Reporting e}

/-- A step other than a call of `get_finished`. -/
theorem Inv.quiet (h : s.Inv) {lab : WorkerLabel} {w : WorkerConnector e}
    (hok : s.Paced lab) (hs : s.worker.Does lab w)
    (hpending : w.pendingSends = s.worker.pendingSends)
    (hflight : ∀ r i, w.loadFutures.get? r = some i ↔
      s.worker.loadFutures.get? r = some i ∨ s.worker.loads.length ≤ i ∧ w.LoadOf r i) :
    (⟨w, s.reports⟩ : Reporting e).Inv where
  tracks := h.tracks.step hok.1 hs
  pending r := by
    rw [hpending]
    exact h.pending r
  inFlight r i := by
    rw [hflight, h.inFlight]
    rcases Nat.lt_or_ge i s.worker.loads.length with hi | hi
    · rw [hs.loadOf_iff hi, or_iff_left (fun hle => absurd hle.1 (by omega))]
    · have hnone : ∀ b ∈ s.reports, ¬b.Loaded r i := by
        rintro b hb ⟨l, hl, -⟩
        have := (List.getElem?_eq_some_iff.mp hl).1
        have := h.older b hb
        omega
      have hnot : ¬s.worker.LoadOf r i := fun hof => absurd hof.lt (by omega)
      rw [or_iff_right (fun hold => hnot hold.1), and_iff_right hi]
      exact (and_iff_left hnone).symm
  older b hb := (h.older b hb).trans (length_le_of_does hs)
  returned b hb r hr := by
    rw [hpending]
    exact h.returned b hb r hr
  exact := h.exact
  disjoint := h.disjoint

/-- The new record is exact. -/
theorem Inv.exact_report (h : s.Inv) (ids : Finset String) :
    (s.worker.report ids).Exact s.reports := by
  have hflight : ∀ {r i}, Report.FirstLoaded s.reports (s.worker.report ids) r i ↔
      s.worker.loadFutures.get? r = some i ∧ s.worker.loadDone i = true := by
    intro r i
    rw [h.inFlight]
    constructor
    · rintro ⟨hl, hb⟩
      have hof := loadOf_of_loaded hl
      exact ⟨⟨hof, hb⟩, (loaded_report hof).mp hl⟩
    · rintro ⟨⟨hof, hb⟩, hdone⟩
      exact ⟨(loaded_report hof).mpr hdone, hb⟩
  refine ⟨fun r => ?_, fun r => ?_, fun hi hj => ?_⟩
  · rw [Report.FirstStored, stored_report, ← h.pending, and_comm, or_comm]
    exact h.tracks.mem_sending
  · simp only [hflight]
    exact @mem_recving _ _ ids r
  · have hj := (hflight.mp hj).1
    rw [(hflight.mp hi).1] at hj
    exact Option.some.inj hj

/-- A call of `get_finished`. -/
theorem Inv.getFinished (h : s.Inv) {ids : Finset String} (hok : s.Paced (.getFinished ids)) :
    (⟨(s.worker.getFinished ids).2, s.reports ++ [s.worker.report ids]⟩ : Reporting e).Inv := by
  have hexact := h.exact_report ids
  have hpending : ∀ r, r ∈ (s.worker.getFinished ids).2.pendingSends ↔
      (r ∈ s.worker.pendingSends ∨ r ∈ ids) ∧ r ∉ (s.worker.report ids).sending := fun r => by
    simp only [WorkerConnector.getFinished, report, Finset.mem_sdiff, Finset.mem_union]
  -- an id that was returned before is not passed again, so it is not returned again
  have hagain : ∀ b ∈ s.reports, ∀ r ∈ b.sending, ¬(r ∈ s.worker.pendingSends ∨ r ∈ ids) := by
    intro b hb r hr
    obtain ⟨hnot, b', hb', hpassed⟩ := h.returned b hb r hr
    exact not_or.mpr ⟨hnot, fun hids => hok.2.2 r hids b' hb' hpassed⟩
  have hfrom : ∀ r ∈ (s.worker.report ids).sending, r ∈ s.worker.pendingSends ∨ r ∈ ids :=
    fun r hr => (h.tracks.mem_sending.mp hr).1
  refine ⟨h.tracks.step hok.1 (.getFinished ids), fun r => ?_, fun r i => ?_, fun b hb => ?_,
    fun b hb r hr => ?_, fun k c hk => ?_, ?_⟩
  · have hids : r ∈ (s.worker.report ids).finishedReqIds ↔ r ∈ ids := Iff.rfl
    rw [hpending, Report.awaits_snoc, h.pending, hexact.sending, Report.FirstStored, hids]
    tauto
  · have hsame : (s.worker.getFinished ids).2.LoadOf r i ↔ s.worker.LoadOf r i := Iff.rfl
    rw [get?_loadFutures_getFinished, h.inFlight, hsame, and_assoc]
    refine and_congr_right fun hof => ?_
    rw [List.forall_mem_append, List.forall_mem_singleton, loaded_report hof, Bool.not_eq_true]
  · rcases List.mem_append.mp hb with hb | hb
    · exact h.older b hb
    · rw [List.mem_singleton.mp hb]
      exact Nat.le_refl _
  · have hpassed : ∃ b' ∈ s.reports ++ [s.worker.report ids], r ∈ b'.finishedReqIds := by
      rcases List.mem_append.mp hb with hb | hb
      · obtain ⟨-, b', hb', hids⟩ := h.returned b hb r hr
        exact ⟨b', List.mem_append_left _ hb', hids⟩
      · rw [List.mem_singleton.mp hb] at hr
        rcases hfrom r hr with hold | hids
        · obtain ⟨b', hb', hids⟩ := ((h.pending r).mp hold).passed
          exact ⟨b', List.mem_append_left _ hb', hids⟩
        · exact ⟨_, List.mem_append_right _ (List.mem_singleton_self _), hids⟩
    refine ⟨fun hin => ?_, hpassed⟩
    obtain ⟨hin, hnot⟩ := (hpending r).mp hin
    rcases List.mem_append.mp hb with hb | hb
    · exact hagain b hb r hr hin
    · exact hnot (List.mem_singleton.mp hb ▸ hr)
  · rcases Nat.lt_or_ge k s.reports.length with hlt | hge
    · rw [List.getElem?_append_left hlt] at hk
      rw [List.take_append_of_le_length hlt.le]
      exact h.exact k c hk
    · rw [List.getElem?_append_right hge, List.getElem?_singleton] at hk
      split_ifs at hk with hzero
      cases hk
      obtain rfl : k = s.reports.length := by omega
      rwa [List.take_left]
  · refine List.pairwise_append.mpr ⟨h.disjoint, List.pairwise_singleton _ _, fun b hb c hc => ?_⟩
    rw [List.mem_singleton.mp hc]
    exact Finset.disjoint_left.mpr fun r hr hr' => hagain b hb r hr (hfrom r hr')

theorem Inv.step (h : s.Inv) {lab : WorkerLabel} (hok : s.Paced lab)
    (hs : s.step lab = some s') : s'.Inv := by
  obtain ⟨w, hw, rfl⟩ := Option.map_eq_some_iff.mp hs
  have hdoes := does_of_step hw
  -- a step that leaves the tables alone
  have hsame : w.pendingSends = s.worker.pendingSends →
      w.loadFutures = s.worker.loadFutures → w.loads.length = s.worker.loads.length →
      (⟨w, s.reports⟩ : Reporting e).Inv := by
    intro hpending hfutures hlen
    refine h.quiet hok hdoes hpending fun r i => ?_
    rw [hfutures, or_iff_left fun hle => absurd hle.2.lt (by omega)]
  cases hdoes with
  | startLoadKv m => exact h.quiet hok (.startLoadKv m) rfl fun r i => get?_startLoadKv hok.2.1
  | getFinished ids => exact h.getFinished hok
  | loadReply reply _ _ => exact hsame rfl rfl (List.length_set ..)
  | finishLoad _ _ | raises _ _ | kernel _ _ _ => exact hsame rfl rfl (List.length_set ..)
  | _ => exact hsame rfl rfl rfl

/-- Completion reports are exact : the `k`-th call returns in `finished_sending` the ids passed
whose STOREs are all done for the first time since, and in `finished_recving` those of the loads
that are done for the first time, one load for each; and no two calls return an id as sent. -/
theorem reports_exact {kv : KVCache e.transfer.blockNbytes} {labs : List WorkerLabel}
    (hrun : Run step Paced (new kv) labs s) :
    (∀ (k : ℕ) (c : Report), s.reports[k]? = some c → c.Exact (s.reports.take k)) ∧
      s.reports.Pairwise fun b c => Disjoint b.sending c.sending := by
  have hinv := hrun.invariant Inv (inv_new kv) fun _ _ _ h hok hs => h.step hok hs
  exact ⟨hinv.exact, hinv.disjoint⟩

/-- Request `b` stores its second chunk. -/
def sampleSave : Metadata where
  requests := [⟨"b", .store, ⟨[1, 2, 3, 4], [6, 7], 2, 4, 0⟩⟩]
  nodup req := by cases req <;> decide

theorem sampleSave_saves : (WorkerLabel.waitForSave sampleSave).Saves .sample := by
  intro x hx
  obtain rfl := List.mem_singleton.mp hx
  exact ⟨⟨[1, 2, 3, 4], 0, 0, [4, 5, 6, 7], 4, 2, true, false, true⟩, by decide, by decide, rfl⟩

/-- `b` is passed while its STORE and its load are in flight. The load is done before the second
call, and the STORE before the third. -/
theorem reports_exact_sample : ∃ s : Reporting .sample,
    s.reports.map (fun c => (c.sending, c.recving)) = [(∅, ∅), (∅, {"b"}), ({"b"}, ∅)] ∧
    (∀ (k : ℕ) (c : Report), s.reports[k]? = some c → c.Exact (s.reports.take k)) ∧
    s.reports.Pairwise fun b c => Disjoint b.sending c.sending := by
  have hrun : (replay step (fun s lab => decide (s.worker.Fresh lab ∧ s.PassesNew lab))
      (new sampleKV)
      [.startLoadKv sampleMetadata, .waitForSave sampleSave, .getFinished {"b"},
        .loadReply 0 (.error .keyError), .finishLoad 0, .finishLoad 0, .getFinished ∅,
        .storeReply 0, .getFinished ∅]).map (fun s =>
          decide (s.reports.map (fun c => (c.sending, c.recving)) =
            [(∅, ∅), (∅, {"b"}), ({"b"}, ∅)])) = some true := by decide
  obtain ⟨s, hs, he⟩ := Option.map_eq_some_iff.mp hrun
  have hpaced := ((run_of_replay hs).mono fun _ _ hok => of_decide_eq_true hok).and_label
    (P := fun lab => lab.Saves .sample) (by
      simp only [List.forall_mem_cons, List.not_mem_nil, false_implies, implies_true, and_true]
      exact ⟨trivial, sampleSave_saves, trivial, trivial, trivial, trivial, trivial, trivial,
        trivial⟩)
  exact ⟨s, of_decide_eq_true he, reports_exact hpaced⟩

end Reporting

end MiniLlmcache
