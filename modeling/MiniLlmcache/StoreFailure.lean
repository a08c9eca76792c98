import MiniLlmcache.WriteBack

/-!
# A store that raises

The write-back loop waits for the futures of its batch one by one, and nothing in `run` catches what
a `store` raised : the exception ends the loop. `failed_store_stays` says so of every run from there
on : the batch's holds stay, and no batch is taken from the queue any more.

As long as no store raises, the loop does no damage (`writeback_undamaged`). What its own steps add
to a read count is what it holds; at rest that is nothing. And it always comes to rest : every step
of the loop and of the adapters lowers `System.work`, and while a batch waits one of them can be
made.
-/

namespace MiniLlmcache

variable {blake3 : Bytes → Bytes}

/-! ## Stores and futures -/

/-- The number of stores that run for this future. -/
def StoreFuture.runs : StoreFuture → ℕ
  | running _ => 1
  | _ => 0

namespace Writeback

/-- The loop has handled its batches so far, and has not reserved another. -/
def Between : Writeback → Prop
  | idle | reserve _ => True
  | _ => False

/-- The number of stores that adapter `i` has to run for the batch. -/
def runs (i : ℕ) (w : Writeback) : ℕ := (w.futures[i]?).elim 0 StoreFuture.runs

theorem runs_submit (locked : List (ChunkKey × MemoryObj)) (futures : List StoreFuture) (i : ℕ) :
    (submit locked (futures ++ [.running locked])).runs i =
      (submit locked futures).runs i + if futures.length = i then 1 else 0 := by
  simp only [runs, Writeback.futures]
  rcases lt_trichotomy i futures.length with hlt | rfl | hgt
  · rw [List.getElem?_append_left hlt, if_neg (by omega), add_zero]
  · rw [List.getElem?_concat_length, List.getElem?_eq_none le_rfl, if_pos rfl]
    rfl
  · rw [List.getElem?_eq_none (by simpa using Nat.succ_le_of_lt hgt),
      List.getElem?_eq_none (by omega), if_neg (by omega)]
    rfl

theorem runs_of_await {futures : List StoreFuture} (h : await futures = some true) (i : ℕ) :
    (futures[i]?).elim 0 StoreFuture.runs = 0 := by
  rcases hf : futures[i]? with _ | f
  · rfl
  · rw [eq_ok_of_await h f (List.mem_of_getElem? hf)]
    rfl

theorem futures_setFutures {w : Writeback} {i : ℕ} {f g : StoreFuture}
    (hf : w.futures[i]? = some f) :
    (w.setFutures (w.futures.set i g)).futures = w.futures.set i g := by
  cases w with
  | submit | dead => rfl
  | _ => cases hf

theorem runs_setFutures {w : Writeback} {i j : ℕ} {f g : StoreFuture}
    (hf : w.futures[i]? = some f) : (w.setFutures (w.futures.set i g)).runs j =
      if i = j then g.runs else w.runs j := by
  rw [runs, futures_setFutures hf]
  split_ifs with hij
  · subst hij
    rw [List.getElem?_set_self (List.getElem?_eq_some_iff.mp hf).1]
    rfl
  · rw [List.getElem?_set_ne hij, runs]

theorem raised_of_await : ∀ {futures : List StoreFuture}, await futures = some false →
    .raised ∈ futures
  | .running _ :: _, h => by cases h
  | .raised :: _, _ => List.mem_cons_self
  | .ok :: futures, h => by
    have h : await futures = some false := h
    exact List.mem_cons_of_mem _ (raised_of_await h)

/-- The loop blocks at a store that runs. -/
theorem running_of_await : ∀ {futures : List StoreFuture}, await futures = none →
    ∃ (i : ℕ) (todo : List (ChunkKey × MemoryObj)),
      futures[i]? = some (StoreFuture.running todo)
  | .running todo :: _, _ => ⟨0, todo, rfl⟩
  | .ok :: futures, h => by
    have h : await futures = none := h
    obtain ⟨i, todo, hi⟩ := running_of_await h
    exact ⟨i + 1, todo, hi⟩

end Writeback

/-- The worker submits lookups and loads only. -/
theorem Worker.l2s_step {srv srv' : CacheServer} {l2s l2s' : List Adapter} {w w' : Worker}
    (hs : w.Does srv l2s srv' l2s' w') :
    l2s' = l2s ∨ ∃ i task, task ≠ .store ∧ l2s' = MiniLlmcache.submit l2s i task := by
  cases hs with
  | submitLookup => exact Or.inr ⟨_, .lookup, nofun, rfl⟩
  | submitLoad => exact Or.inr ⟨_, .load, nofun, rfl⟩
  | _ => exact Or.inl rfl

theorem count_tasksAt_submit (l2s : List Adapter) (i j : ℕ) (task t : Task) :
    (tasksAt (submit l2s i task) j).count t =
      (tasksAt l2s j).count t + if i = j ∧ task = t ∧ j < l2s.length then 1 else 0 := by
  unfold tasksAt submit
  rw [List.getElem?_modify]
  rcases ha : l2s[j]? with _ | a
  · rw [if_neg fun h => absurd (List.getElem?_eq_none_iff.mp ha) (by omega)]
    rfl
  · have hlt := (List.getElem?_eq_some_iff.mp ha).1
    by_cases hij : i = j
    · by_cases ht : task = t <;> simp [hij, ht, hlt]
    · simp [hij]

namespace System

variable {s s' : System} {lost : Multiset ChunkKey} {log : Log}

theorem count_tasksAt_popTask {i : ℕ} {task : Task} (ht : s.oldest i = some task) (j : ℕ)
    (t : Task) : (tasksAt s.l2s j).count t =
      (tasksAt (s.popTask i).l2s j).count t + if i = j ∧ task = t then 1 else 0 := by
  rw [tasksAt_popTask]
  by_cases hij : i = j
  · subst hij
    rw [oldest_eq] at ht
    obtain ⟨rest, hrest⟩ := List.head?_eq_some_iff.mp ht
    rw [hrest, if_pos rfl, List.tail_cons, List.count_cons]
    by_cases htask : task = t <;> simp [htask]
  · simp [hij]

/-- The stores the adapters have to run are those the loop has submitted and that still run. -/
structure StoreInv (s : System) : Prop where
  futures : s.writeback.futures.length ≤ s.l2s.length
  tasks : ∀ i, (tasksAt s.l2s i).count .store = s.writeback.runs i

theorem StoreInv.writeback (h : s.StoreInv) (hs : s.step blake3 .writeback = some s') :
    s'.StoreInv := by
  have hlen := length_l2s hs
  obtain ⟨srv', l2s', w', hdoes, rfl⟩ := step_writeback hs
  obtain ⟨hfutures, htasks⟩ := h
  generalize s.writeback = w at hdoes hfutures htasks
  cases hdoes with
  | @submit locked futures hlt =>
    refine ⟨?_, fun i => ?_⟩
    · simp only [Writeback.futures, List.length_append, List.length_singleton] at hlen ⊢
      omega
    · rw [count_tasksAt_submit, htasks, Writeback.runs_submit]
      by_cases hi : futures.length = i
      · subst hi
        simp [hlt]
      · simp [hi]
  | stored hawait =>
    exact ⟨Nat.zero_le _, fun i => (htasks i).trans (Writeback.runs_of_await hawait i)⟩
  | _ => exact ⟨hfutures, htasks⟩

/-- A store that an adapter works on is one of the loop's futures. -/
theorem StoreInv.running (h : s.StoreInv) {i : ℕ} (ht : s.oldest i = some .store) :
    ∃ todo, s.writeback.futures[i]? = some (.running todo) := by
  have hcount := count_tasksAt_popTask ht i .store
  rw [h.tasks, if_pos ⟨rfl, rfl⟩, Writeback.runs] at hcount
  rcases hf : s.writeback.futures[i]? with _ | _ | _ | _
  case some.running todo => exact ⟨todo, rfl⟩
  all_goals
    rw [hf] at hcount
    simp [StoreFuture.runs] at hcount

/-- Adapter `i` goes on with its store. -/
theorem StoreInv.of_setStore {i : ℕ} {f g : StoreFuture} (h : s.StoreInv)
    (hf : s.writeback.futures[i]? = some f)
    (hw : s'.writeback = s.writeback.setFutures (s.writeback.futures.set i g))
    (hlen : s'.l2s.length = s.l2s.length)
    (htasks : ∀ j, (tasksAt s.l2s j).count .store + (if i = j then g.runs else 0) =
      (tasksAt s'.l2s j).count .store + if i = j then f.runs else 0) : s'.StoreInv := by
  refine ⟨?_, fun j => ?_⟩
  · rw [hw, Writeback.futures_setFutures hf, List.length_set, hlen]
    exact h.futures
  · have hj := htasks j
    rw [h.tasks] at hj
    rw [hw, Writeback.runs_setFutures hf]
    split_ifs at hj ⊢ with hij
    · subst hij
      rw [Writeback.runs, hf, Option.elim_some] at hj
      omega
    · omega

theorem StoreInv.l2 {i : ℕ} {act : L2Act} (h : s.StoreInv)
    (hs : s.step blake3 (.l2 i act) = some s') : s'.StoreInv := by
  have hlen := length_l2s hs
  have hpop : ∀ {task : Task}, s.oldest i = some task → task ≠ .store →
      s'.writeback = s.writeback → s'.l2s = (s.popTask i).l2s → s'.StoreInv := by
    intro task ht hne hw hl2s
    refine ⟨by rw [hw, hlen]; exact h.futures, fun j => ?_⟩
    have hcount := count_tasksAt_popTask ht j .store
    rw [if_neg fun hj => hne hj.2, add_zero] at hcount
    rw [hw, hl2s, ← hcount, h.tasks]
  have hdone : ∀ {t : System}, s.oldest i = some .store → t.l2s = (s.popTask i).l2s → ∀ j,
      (tasksAt s.l2s j).count .store + (if i = j then 0 else 0) =
        (tasksAt t.l2s j).count .store + if i = j then 1 else 0 := by
    intro t ht hl2s j
    rw [count_tasksAt_popTask ht j .store, hl2s]
    simp
  cases l2_does hs with
  | found _ ht | lookupFail ht =>
    exact hpop ht nofun (writeback_setLookup _ _ _) (l2s_setLookup _ _ _)
  | loaded _ ht | loadFail _ ht => exact hpop ht nofun rfl rfl
  | fill | scribble => exact ⟨h.futures, h.tasks⟩
  | @persist key obj todo hf =>
    refine h.of_setStore hf rfl hlen fun j => ?_
    rw [← tasksAt_persist s.l2s i (key, s.server.l1.bytes obj) j]
    rfl
  | skip hf => exact h.of_setStore hf rfl hlen fun j => rfl
  | stored hf ht => exact h.of_setStore hf rfl hlen (hdone ht rfl)
  | storeFail ht =>
    obtain ⟨todo, hf⟩ := h.running ht
    exact h.of_setStore hf rfl hlen (hdone ht rfl)

theorem StoreInv.step {l : Label} (h : s.StoreInv) (hs : s.step blake3 l = some s') :
    s'.StoreInv := by
  have hlen := length_l2s hs
  cases l with
  | recv t m =>
    obtain ⟨-, rfl⟩ := step_recv hs
    exact ⟨h.futures, h.tasks⟩
  | handler t =>
    obtain ⟨m, hd, srv', hd', -, -, rfl⟩ := step_handler hs
    exact ⟨h.futures, h.tasks⟩
  | worker =>
    obtain ⟨srv', l2s', w', hdoes, rfl⟩ := step_worker hs
    refine ⟨h.futures.trans hlen.ge, fun i => ?_⟩
    rcases Worker.l2s_step hdoes with rfl | ⟨j, task, hne, rfl⟩
    · exact h.tasks i
    · rw [count_tasksAt_submit, if_neg fun hj => hne hj.2.1, add_zero]
      exact h.tasks i
  | writeback => exact h.writeback hs
  | evictor =>
    rw [step_evictor hs]
    exact ⟨h.futures, h.tasks⟩
  | l2 i act => exact h.l2 hs

theorem storeInv_new (chunkSize capacity : ℕ) (pool : ℕ → UInt8) (adapters : ℕ) :
    (new chunkSize capacity pool adapters).StoreInv := by
  refine ⟨Nat.zero_le _, fun i => ?_⟩
  simp only [tasksAt, new, List.getElem?_replicate]
  split_ifs <;> rfl

theorem Reachable.storeInv (h : s.Reachable blake3) : s.StoreInv := by
  obtain ⟨_, _, _, _, _, hrun⟩ := h
  exact hrun.invariant (fun s => s.StoreInv) (storeInv_new _ _ _ _)
    fun _ _ _ hinv _ hs => hinv.step hs

/-! ## Without a failure -/

/-- The loop has not ended, and nothing it waits for will end it. -/
structure Alive (s : System) : Prop where
  notDead : ∀ locked futures, s.writeback ≠ .dead locked futures
  settled : .raised ∉ s.writeback.futures

theorem Alive.of_eq (h : s.Alive) (hw : s'.writeback = s.writeback) : s'.Alive :=
  ⟨hw ▸ h.notDead, hw ▸ h.settled⟩

theorem Alive.setStore (h : s.Alive) {i : ℕ} {f g : StoreFuture}
    (hf : s.writeback.futures[i]? = some f) (hg : g ≠ .raised)
    (hw : s'.writeback = s.writeback.setFutures (s.writeback.futures.set i g)) : s'.Alive := by
  refine ⟨fun locked futures hdead => ?_, fun hmem => ?_⟩
  · rw [hw] at hdead
    obtain ⟨hnot, -⟩ := h
    cases hwb : s.writeback with
    | dead locked futures => exact hnot locked futures hwb
    | _ =>
      rw [hwb] at hdead
      cases hdead
  · rw [hw, Writeback.futures_setFutures hf] at hmem
    rcases List.mem_or_eq_of_mem_set hmem with hmem | rfl
    · exact h.settled hmem
    · exact hg rfl

theorem Alive.writeback (h : s.Alive) (hinv : s.Inv blake3 lost)
    (hs : s.step blake3 .writeback = some s') : s'.Alive := by
  obtain ⟨srv', l2s', w', hdoes, rfl⟩ := step_writeback hs
  obtain ⟨hnot, hsettled⟩ := h
  rcases hwb : s.writeback with _ | keys | ⟨locked, futures⟩ | keys | ⟨locked, futures⟩ <;>
    rw [hwb] at hdoes hsettled
  case submit =>
    cases hdoes with
    | submit hlt =>
      refine ⟨by rintro _ _ ⟨⟩, fun hmem => ?_⟩
      rcases List.mem_append.mp hmem with hmem | hmem
      · exact hsettled hmem
      · cases List.mem_singleton.mp hmem
    | stored hawait => exact ⟨by rintro _ _ ⟨⟩, List.not_mem_nil⟩
    | raised hawait => exact (hsettled (Writeback.raised_of_await hawait)).elim
  case finishRead =>
    cases hdoes with
    | finishRead hl1 => exact ⟨by rintro _ _ ⟨⟩, List.not_mem_nil⟩
    | finishReadFail hl1 =>
      have hfinishing : s.finishing .writeback = some keys := by rw [finishing, hwb]
      obtain ⟨l1, hl1', -⟩ := hinv.finishRead_returned hfinishing
      rw [hl1] at hl1'
      cases hl1'
  case dead => cases hdoes
  all_goals
    cases hdoes
    all_goals exact ⟨by rintro _ _ ⟨⟩, List.not_mem_nil⟩

theorem Alive.step {l : Label} (h : s.Alive) (hinv : s.Inv blake3 lost) (hk : s.Keeps l)
    (hs : s.step blake3 l = some s') : s'.Alive := by
  cases l with
  | recv t m =>
    obtain ⟨-, rfl⟩ := step_recv hs
    exact h.of_eq rfl
  | handler t =>
    obtain ⟨m, hd, srv', hd', -, -, rfl⟩ := step_handler hs
    exact h.of_eq rfl
  | worker =>
    obtain ⟨srv', l2s', w', -, rfl⟩ := step_worker hs
    exact h.of_eq rfl
  | writeback => exact h.writeback hinv hs
  | evictor =>
    obtain rfl := step_evictor hs
    exact h.of_eq rfl
  | l2 i act =>
    cases l2_does hs with
    | found | lookupFail => exact h.of_eq (writeback_setLookup _ _ _)
    | fill | scribble | loaded | loadFail => exact h.of_eq rfl
    | persist hf | skip hf => exact h.setStore (g := .running _) hf nofun rfl
    | stored hf => exact h.setStore (g := .ok) hf nofun rfl
    | storeFail ht => exact (hk ht).elim

/-- What the loop's own steps have added to a read count is what it holds. -/
theorem net_step {l : Label} (h : s.Inv blake3 lost)
    (hnet : ∀ k, log.net k = s.writeback.holds.count k) (hs : s.step blake3 l = some s')
    (k : ChunkKey) : (s.nextLog s' log l).net k = s'.writeback.holds.count k := by
  have hsame : l ≠ .writeback → s'.writeback.holds = s.writeback.holds →
      (s.nextLog s' log l).net k = s'.writeback.holds.count k := by
    intro hl hholds
    simp only [nextLog, if_neg hl, add_zero, hnet, hholds]
  cases l with
  | recv t m =>
    obtain ⟨-, rfl⟩ := step_recv hs
    exact hsame (by rintro ⟨⟩) rfl
  | handler t =>
    obtain ⟨m, hd, srv', hd', -, -, rfl⟩ := step_handler hs
    exact hsame (by rintro ⟨⟩) rfl
  | worker =>
    obtain ⟨srv', l2s', w', -, rfl⟩ := step_worker hs
    exact hsame (by rintro ⟨⟩) rfl
  | writeback =>
    obtain ⟨hinv', -, -⟩ := inv_writeback h hs
    have hbefore := h.readCount_eq k
    have hafter := hinv'.readCount_eq k
    obtain ⟨srv', l2s', w', hdoes, rfl⟩ := step_writeback hs
    have hsessions : srv'.sessions = s.server.sessions := by
      rw [CacheServer.sessions, (Writeback.sessions_step hdoes).1, CacheServer.sessions]
    simp only [holds, hsessions, Multiset.count_add] at hbefore hafter
    simp only [nextLog, if_true, hnet]
    omega
  | evictor =>
    obtain rfl := step_evictor hs
    exact hsame (by rintro ⟨⟩) rfl
  | l2 i act =>
    refine hsame (by rintro ⟨⟩) ?_
    cases l2_does hs with
    | found | lookupFail => rw [writeback_setLookup]; rfl
    | fill | scribble | loaded | loadFail => rfl
    | persist | skip | stored | storeFail => exact holds_setFutures _ _

end System

/-! ## The loop comes to rest -/

/-- How many steps `n` adapters and the loop take at most for the batch it is at. -/
def Writeback.work (n : ℕ) : Writeback → ℕ
  | idle => 0
  | reserve keys => n * (keys.length + 2) + 3
  | submit locked futures =>
    (n - futures.length) * (locked.length + 2) + (futures.map fun f => f.todo.length).sum + 2
  | finishRead _ => 1
  | dead _ futures => (futures.map fun f => f.todo.length).sum

/-- The slots that the load under way can still fill. -/
def Worker.unfilled : Worker → ℕ
  | loading p _ _ filled none => p.load.length - (p.loaded + filled)
  | _ => 0

/-- A sum over a list in which one entry changes. -/
theorem sum_map_modify {α : Type*} (f : α → α) (g : α → ℕ) : ∀ {l : List α} {i : ℕ} {a : α},
    l[i]? = some a → ((l.modify i f).map g).sum + g a = (l.map g).sum + g (f a)
  | b :: l, 0, a, h => by
    obtain rfl : b = a := Option.some.inj h
    simp only [List.modify_zero_cons, List.map_cons, List.sum_cons]
    omega
  | b :: l, i + 1, a, h => by
    have ih := sum_map_modify f g (l := l) h
    simp only [List.modify_succ_cons, List.map_cons, List.sum_cons]
    omega

namespace System

variable {s s' : System} {lost : Multiset ChunkKey} {log : Log}

/-- The tasks in all queues. -/
def tasks (l2s : List Adapter) : ℕ := (l2s.map fun a => a.tasks.length).sum

/-- How many steps the loop and the adapters take at most until they are at rest. -/
def work (s : System) : ℕ :=
  s.writeback.work s.l2s.length +
    ((s.pending.getD []).map fun keys => s.l2s.length * (keys.length + 2) + 4).sum +
    tasks s.l2s + s.worker.unfilled

/-- A step of the loop or of an adapter, in which no store raises and a load fills its next
slot. -/
def Drains (s : System) (l : Label) : Prop :=
  s.Keeps l ∧ match l with
    | .writeback => True
    | .l2 _ (.fill _ complete) => complete = true
    | .l2 _ _ => True
    | _ => False

theorem tasks_submit {l2s : List Adapter} {i : ℕ} (task : Task) (hi : i < l2s.length) :
    tasks (submit l2s i task) = tasks l2s + 1 := by
  have hsum := sum_map_modify (fun a : Adapter => { a with tasks := a.tasks ++ [task] })
    (fun a => a.tasks.length) (List.getElem?_eq_getElem hi)
  simp only [List.length_append, List.length_singleton] at hsum
  rw [tasks, tasks, submit]
  omega

theorem tasks_popTask {i : ℕ} {task : Task} (ht : s.oldest i = some task) :
    tasks (s.popTask i).l2s + 1 = tasks s.l2s := by
  obtain ⟨a, ha, hhead⟩ := Option.bind_eq_some_iff.mp ht
  have hsum := sum_map_modify (fun a : Adapter => { a with tasks := a.tasks.tail })
    (fun a => a.tasks.length) ha
  obtain ⟨rest, hrest⟩ := List.head?_eq_some_iff.mp hhead
  simp only [hrest, List.length_cons, List.tail_cons] at hsum
  have hpop : tasks (s.popTask i).l2s = ((s.l2s.modify i fun a =>
      { a with tasks := a.tasks.tail }).map fun a => a.tasks.length).sum := rfl
  rw [hpop, tasks]
  omega

theorem work_writeback (hs : s.step blake3 .writeback = some s') : s'.work < s.work := by
  have hlen := length_l2s hs
  obtain ⟨srv', l2s', w', hdoes, rfl⟩ := step_writeback hs
  simp only [work, pending] at hlen ⊢
  rw [hlen]
  generalize s.writeback = w at hdoes
  cases hdoes with
  | take hp =>
    simp only [hp, Writeback.work, Option.getD_some, List.map_cons, List.sum_cons]
    omega
  | @evicted keys hnone =>
    rw [(L1Manager.silent_reserveRead keys s.server.l1).listeners]
    simp only [Writeback.work]
    omega
  | @reserve keys hsome =>
    rw [(L1Manager.silent_reserveRead keys s.server.l1).listeners]
    have hle : s.l2s.length * ((L1Manager.lockedKeys (s.server.l1.reserveRead keys).1).length + 2) ≤
        s.l2s.length * (keys.length + 2) :=
      Nat.mul_le_mul_left _ (Nat.add_le_add_right (L1Manager.length_lockedKeys_le keys _) 2)
    simp only [Writeback.work, List.length_nil, Nat.sub_zero, List.map_nil, List.sum_nil]
    omega
  | @submit locked futures hlt =>
    obtain ⟨m, hm⟩ : ∃ m, s.l2s.length - futures.length = m + 1 :=
      ⟨s.l2s.length - futures.length - 1, by omega⟩
    have hm' : s.l2s.length - (futures.length + 1) = m := by omega
    rw [tasks_submit .store hlt]
    simp only [Writeback.work, List.length_append, List.length_singleton, List.map_append,
      List.map_singleton, List.sum_append, List.sum_singleton, StoreFuture.todo, hm, hm',
      Nat.succ_mul]
    omega
  | stored | raised =>
    simp only [Writeback.work]
    omega
  | @finishRead keys l1 hl1 =>
    have hpending : l1.listeners.pending = s.server.l1.listeners.pending :=
      L1Manager.pending_of_finishRead (congrArg Outcome.state hl1)
    simp only [Writeback.work, hpending]
    omega
  | @finishReadFail keys l1 e hl1 =>
    have hpending : l1.listeners.pending = s.server.l1.listeners.pending :=
      L1Manager.pending_of_finishRead (congrArg Outcome.state hl1)
    simp only [Writeback.work, hpending, List.map_nil, List.sum_nil]
    omega

theorem work_setFutures {w : Writeback} {i : ℕ} {f g : StoreFuture} (n : ℕ)
    (hf : w.futures[i]? = some f) :
    (w.setFutures (w.futures.set i g)).work n + f.todo.length = w.work n + g.todo.length := by
  have hsum := sum_map_modify (fun _ => g) (fun f => f.todo.length) hf
  rw [← List.set_eq_modify] at hsum
  cases w with
  | submit locked futures =>
    simp only [Writeback.setFutures, Writeback.futures, Writeback.work, List.length_set] at hsum ⊢
    omega
  | dead locked futures => exact hsum
  | _ => cases hf

theorem unfilled_setLookup (s : System) (i : ℕ) (r : Except Exc ℕ) :
    (s.setLookup i r).worker.unfilled = s.worker.unfilled := by
  unfold setLookup
  split
  · rename_i hw
    rw [hw]
    rfl
  · rfl

/-- An adapter is done with a lookup or load. -/
theorem work_pop {i : ℕ} {task : Task} (ht : s.oldest i = some task)
    (hpending : s'.pending = s.pending) (hw : s'.writeback = s.writeback)
    (hl2s : s'.l2s = (s.popTask i).l2s) (hunfilled : s'.worker.unfilled ≤ s.worker.unfilled) :
    s'.work < s.work := by
  have hlen : (s.popTask i).l2s.length = s.l2s.length := List.length_modify _ _ _
  have hpop := tasks_popTask ht
  simp only [work, hpending, hw, hl2s, hlen]
  omega

/-- An adapter goes on with its store, or is done with it. -/
theorem work_setStore {i : ℕ} {f g : StoreFuture} (hf : s.writeback.futures[i]? = some f)
    (hlen : s'.l2s.length = s.l2s.length) (hpending : s'.pending = s.pending)
    (hw : s'.writeback = s.writeback.setFutures (s.writeback.futures.set i g))
    (hworker : s'.worker = s.worker)
    (hless : g.todo.length + tasks s'.l2s < f.todo.length + tasks s.l2s) : s'.work < s.work := by
  have hset := work_setFutures (g := g) s.l2s.length hf
  simp only [work, hpending, hw, hlen, hworker]
  omega

theorem tasks_persist (l2s : List Adapter) (i : ℕ) (p : ChunkKey × Bytes) :
    tasks (l2s.modify i fun a => { a with stored := a.stored ++ [p] }) = tasks l2s := by
  rcases ha : l2s[i]? with _ | a
  · rw [List.modify_eq_self (List.getElem?_eq_none_iff.mp ha)]
  · have hsum := sum_map_modify (fun a : Adapter => { a with stored := a.stored ++ [p] })
      (fun a => a.tasks.length) ha
    exact Nat.add_right_cancel hsum

theorem work_l2 {i : ℕ} {act : L2Act} (hd : s.Drains (.l2 i act))
    (hs : s.step blake3 (.l2 i act) = some s') : s'.work < s.work := by
  have hlen := length_l2s hs
  have hpending : s'.pending = s.pending := by
    rw [pending_step hs nofun]
    simp [announces]
  cases l2_does hs with
  | found _ ht | lookupFail ht =>
    exact work_pop ht hpending (writeback_setLookup _ _ _) (l2s_setLookup _ _ _)
      (unfilled_setLookup _ _ _).le
  | @fill p order filled key obj data hw hget =>
    have hlt := (List.getElem?_eq_some_iff.mp hget).1
    have hunfilled : s.worker.unfilled = p.load.length - (p.loaded + filled) := by
      rw [hw, Worker.unfilled]
    have hless : (Worker.loading p order i (filled + 1) none).unfilled < s.worker.unfilled := by
      rw [hunfilled, Worker.unfilled]
      omega
    simp only [work, hpending]
    omega
  | scribble => cases hd.2
  | loaded hw ht | loadFail hw ht => exact work_pop ht hpending rfl rfl (Nat.zero_le _)
  | @persist key obj todo hf =>
    refine work_setStore hf hlen hpending rfl rfl ?_
    have htasks := tasks_persist s.l2s i (key, s.server.l1.bytes obj)
    exact lt_of_eq_of_lt (congrArg (todo.length + ·) htasks)
      (Nat.add_lt_add_right (Nat.lt_succ_self _) _)
  | skip hf =>
    exact work_setStore (g := .running _) hf hlen hpending rfl rfl
      (Nat.add_lt_add_right (Nat.lt_succ_self _) _)
  | stored hf ht =>
    have hpop := tasks_popTask ht
    exact work_setStore (g := .ok) hf hlen hpending rfl rfl
      (Nat.add_lt_add_left (Nat.lt_of_succ_le hpop.le) 0)
  | storeFail ht => exact (hd.1 ht).elim

theorem step_l2 {i : ℕ} {task : Task} (ht : s.oldest i = some task) (act : L2Act) :
    s.step blake3 (.l2 i act) = s.l2Step i task act := by
  obtain ⟨a, ha, hhead⟩ := Option.bind_eq_some_iff.mp ht
  obtain ⟨rest, hrest⟩ := List.head?_eq_some_iff.mp hhead
  rw [System.step, ha, Option.map_some, hrest]

/-- An adapter that has a store of the loop to run can go on. -/
theorem exists_l2_step (htasks : TaskInv s.l2s s.worker) (hstore : s.StoreInv) {i : ℕ}
    {todo : List (ChunkKey × MemoryObj)}
    (hf : s.writeback.futures[i]? = some (.running todo)) :
    ∃ act, s.Drains (.l2 i act) ∧ s.step blake3 (.l2 i act) ≠ none := by
  have hcount : (tasksAt s.l2s i).count .store = 1 := by
    rw [hstore.tasks, Writeback.runs, hf]
    rfl
  obtain ⟨task, rest, hrest⟩ : ∃ task rest, tasksAt s.l2s i = task :: rest := by
    refine List.exists_cons_of_ne_nil fun hnil => ?_
    rw [hnil] at hcount
    cases hcount
  have ht : s.oldest i = some task := by rw [oldest_eq, hrest, List.head?_cons]
  cases task with
  | lookup =>
    refine ⟨.found 0, ⟨trivial, trivial⟩, ?_⟩
    rw [step_l2 ht, l2Step, if_pos rfl]
    exact Option.some_ne_none _
  | load =>
    -- the worker waits for this load
    have haw := (htasks.oldest ht (by rintro ⟨⟩)).1
    refine ⟨.loaded, ⟨trivial, trivial⟩, ?_⟩
    rw [step_l2 ht]
    cases hw : s.worker with
    | loading p order j filled future =>
      rw [hw] at haw
      obtain ⟨rfl, rfl⟩ := haw
      simp [l2Step, hw]
    | _ =>
      rw [hw] at haw
      cases haw
  | store =>
    cases todo with
    | nil =>
      refine ⟨.stored, ⟨trivial, trivial⟩, ?_⟩
      rw [step_l2 ht]
      simp [l2Step, hf]
    | cons p todo =>
      refine ⟨.persist false, ⟨trivial, trivial⟩, ?_⟩
      rw [step_l2 ht]
      simp [l2Step, hf]

/-- While a batch waits, the loop or an adapter can go on. -/
theorem rest_of_stuck (htasks : TaskInv s.l2s s.worker) (hstore : s.StoreInv) (halive : s.Alive)
    (hstuck : ∀ l, s.Drains l → s.step blake3 l = none) :
    s.writeback = .idle ∧ s.pending.getD [] = [] := by
  have hnone := hstuck .writeback ⟨trivial, trivial⟩
  rw [System.step, Option.map_eq_none_iff] at hnone
  cases hw : s.writeback with
  | idle =>
    refine ⟨rfl, ?_⟩
    rw [hw, Writeback.step] at hnone
    rw [pending]
    split at hnone
    · simp [*]
    · simp [*]
    · cases hnone
  | reserve keys =>
    rw [hw] at hnone
    cases hnone
  | submit locked futures =>
    rw [hw, Writeback.step] at hnone
    split_ifs at hnone
    split at hnone
    · rename_i hawait
      obtain ⟨i, todo, hf⟩ := Writeback.running_of_await hawait
      have hf : s.writeback.futures[i]? = some (.running todo) := by
        rw [hw]
        exact hf
      obtain ⟨act, hdrains, hsome⟩ := exists_l2_step htasks hstore hf
      exact (hsome (hstuck _ hdrains)).elim
    · cases hnone
    · cases hnone
  | finishRead keys =>
    rw [hw, Writeback.step] at hnone
    split at hnone <;> cases hnone
  | dead locked futures => exact (halive.notDead locked futures hw).elim

variable (blake3) in
/-- What holds as long as no store raises. -/
structure Sound (s : System) (log : Log) : Prop where
  inv : ∃ lost, s.Inv blake3 lost
  tasks : TaskInv s.l2s s.worker
  stores : s.StoreInv
  alive : s.Alive
  mirror : s.Mirror log
  net : ∀ k, log.net k = s.writeback.holds.count k

theorem Sound.step {l : Label} (h : s.Sound blake3 log) (hd : s.Distinct blake3 l)
    (hk : s.Keeps l) (hs : s.step blake3 l = some s') :
    s'.Sound blake3 (s.nextLog s' log l) := by
  obtain ⟨lost, hinv⟩ := h.inv
  exact ⟨⟨_, (inv_step hinv hd hs).1⟩, h.tasks.step hs, h.stores.step hs,
    h.alive.step hinv hk hs, h.mirror.step hk hs, net_step hinv h.net hs⟩

theorem sound_new (chunkSize capacity : ℕ) (pool : ℕ → UInt8) (adapters : ℕ) :
    (logNew chunkSize capacity pool adapters).1.Sound blake3
      (logNew chunkSize capacity pool adapters).2 :=
  ⟨⟨0, inv_new _ _ _ _⟩, taskInv_new _ _ _ _, storeInv_new _ _ _ _, ⟨nofun, nofun⟩,
    mirror_new _ _ _ _, fun _ => rfl⟩

theorem Sound.of_run {p q : System × Log} {ls : List Label} (h : p.1.Sound blake3 p.2)
    (hrun : Run (logStep blake3) (fun p l => p.1.Distinct blake3 l ∧ p.1.Keeps l) p ls q) :
    q.1.Sound blake3 q.2 := by
  refine hrun.invariant (fun q => q.1.Sound blake3 q.2) h ?_
  rintro ⟨s, log⟩ l q hsound ⟨hd, hk⟩ hs
  obtain ⟨s', hs', rfl⟩ := Option.map_eq_some_iff.mp hs
  exact hsound.step hd hk hs'

theorem Drains.distinct {l : Label} (h : s.Drains l) : s.Distinct blake3 l := by
  cases l with
  | recv => cases h.2
  | _ => trivial

/-- The loop and the adapters alone come to rest, and then nothing waits. -/
theorem Sound.drained (h : s.Sound blake3 log) {p : System × Log} {ls : List Label}
    (hrun : Run (logStep blake3) (fun p l => p.1.Drains l) (s, log) ls p) :
    ls.length ≤ s.work ∧ ((∀ l, p.1.Drains l → p.1.step blake3 l = none) →
      p.1.writeback = .idle ∧ p.1.pending.getD [] = []) := by
  have hlength : ls.length + p.1.work ≤ s.work := by
    refine hrun.length_add_le (I := fun _ => True) (μ := fun p => p.1.work) trivial ?_
    rintro ⟨t, log⟩ l q - hd hs
    obtain ⟨t', ht', rfl⟩ := Option.map_eq_some_iff.mp hs
    refine ⟨trivial, ?_⟩
    cases l with
    | writeback => exact work_writeback ht'
    | l2 i act => exact work_l2 hd ht'
    | _ => cases hd.2
  have hsound := h.of_run (hrun.mono fun _ _ hd => ⟨hd.distinct, hd.1⟩)
  exact ⟨by omega, rest_of_stuck hsound.tasks hsound.stores hsound.alive⟩

/-- As long as no adapter's `store` raises (or leaves out a chunk it does not have), write-back
goes undamaged. Between two batches the loop's own steps have added nothing to any read count, and
what it reserved and found readable is in every adapter; batches are reserved in the order they were
announced, and none is lost. And from every state the loop and the adapters come to rest in finitely
many steps of theirs, in whatever order they take them, with the queue empty and the loop idle. -/
theorem writeback_undamaged {chunkSize capacity adapters : ℕ} {pool : ℕ → UInt8}
    {ls : List Label}
    (h : Run (logStep blake3) (fun p l => p.1.Distinct blake3 l ∧ p.1.Keeps l)
      (logNew chunkSize capacity pool adapters) ls (s, log)) :
    (s.writeback.Between → (∀ k, log.net k = 0) ∧
      ∀ q ∈ log.reserved, ∀ k ∈ q.1, k ∉ q.2 → ∀ i < adapters, k ∈ keysAt s.l2s i) ∧
    (∀ pending, s.pending = some pending →
      log.announced = log.reserved.map Prod.fst ++ (s.writeback.taken ++ pending)) ∧
    ∃ n, ∀ ls' p, Run (logStep blake3) (fun p l => p.1.Drains l) (s, log) ls' p →
      ls'.length ≤ n ∧ ((∀ l, p.1.Drains l → p.1.step blake3 l = none) →
        p.1.writeback = .idle ∧ p.1.pending.getD [] = []) := by
  have hsound := (sound_new _ _ _ _).of_run h
  obtain ⟨-, hlen⟩ := mirror_of_run (h.mono fun _ _ hok => hok.2)
  refine ⟨fun hbetween => ⟨fun k => ?_, fun q hq k hk hread i hi => ?_⟩, hsound.mirror.fifo,
    s.work, fun ls' p hrun => hsound.drained hrun⟩
  · have hholds : s.writeback.holds = 0 := by
      cases hw : s.writeback <;> rw [hw] at hbetween <;> first | rfl | cases hbetween
    rw [hsound.net, hholds]
    rfl
  · have hdue : ∀ i, s.writeback.due i = [] := fun i => by
      cases hw : s.writeback <;> rw [hw] at hbetween <;> first | rfl | cases hbetween
    exact hsound.mirror.keysAt_of_idle hdue hq hk hread (hlen.symm ▸ hi)

/-- The chunk of a STORE is written back, and its read count is what it was. -/
theorem writeback_undamaged_sample : ∃ s log, logSample 2 sampleStore = some (s, log) ∧
    log.reserved = [([sampleKey 1], [])] ∧ log.net (sampleKey 1) = 0 ∧
    sampleKey 1 ∈ keysAt s.l2s 0 := by
  have hrun : (logSample 2 sampleStore).map (fun p =>
      decide (p.1.writeback = .idle ∧ p.2.reserved = [([sampleKey 1], [])])) = some true := by
    decide
  obtain ⟨⟨s, log⟩, hs, he⟩ := Option.map_eq_some_iff.mp hrun
  obtain ⟨hidle, hres⟩ := of_decide_eq_true he
  have hidle : s.writeback = _ := hidle
  have hok : Run (logStep sampleDigest) (fun p l => p.1.Distinct sampleDigest l ∧ p.1.Keeps l)
      (logNew 1 2 (fun _ => 0) 1) sampleStore (s, log) :=
    (run_of_logSample hs).mono fun _ _ hok => ⟨hok.1.1, hok.2⟩
  obtain ⟨hnet, hkeys⟩ := (writeback_undamaged hok).1 (by rw [hidle]; trivial)
  have hq : ([sampleKey 1], []) ∈ log.reserved := hres ▸ List.mem_cons_self
  exact ⟨s, log, hs, hres, hnet _,
    hkeys _ hq (sampleKey 1) List.mem_cons_self List.not_mem_nil 0 Nat.one_pos⟩

end System

/-! ## After a failure -/

/-- A future that the loop waits for has raised, or the loop has ended already. -/
def Writeback.Failed : Writeback → Prop
  | submit _ futures => .raised ∈ futures
  | dead _ _ => True
  | _ => False

theorem Writeback.Failed.setFutures {w : Writeback} {i : ℕ} {f g : StoreFuture} (h : w.Failed)
    (hf : w.futures[i]? = some f) (hne : f ≠ .raised) :
    (w.setFutures (w.futures.set i g)).Failed := by
  cases w with
  | submit locked futures =>
    obtain ⟨j, hj⟩ := List.mem_iff_getElem?.mp h
    have hij : i ≠ j := by
      rintro rfl
      exact hne (Option.some.inj (hf.symm.trans hj))
    refine List.mem_iff_getElem?.mpr ⟨j, ?_⟩
    rw [Writeback.futures, List.getElem?_set_ne hij, hj]
  | dead => trivial
  | _ => cases h

theorem Writeback.Failed.not_between {w : Writeback} (h : w.Failed) : ¬w.Between := by
  cases w with
  | submit | dead => exact id
  | _ => exact h.elim

/-- The loop can only end, and it leaves its holds. -/
theorem Writeback.Failed.step {srv srv' : CacheServer} {l2s l2s' : List Adapter}
    {w w' : Writeback} (h : w.Failed) (hs : w.Does srv l2s srv' l2s' w') :
    w'.Failed ∧ srv' = srv ∧ w'.holds = w.holds := by
  cases hs with
  | submit => exact ⟨List.mem_append_left _ h, rfl, rfl⟩
  | stored hawait => cases Writeback.eq_ok_of_await hawait _ h
  | raised => exact ⟨trivial, rfl, rfl⟩
  | _ => cases h

namespace System

variable {s s₁ s' : System}

/-- What a failed batch leaves for good : its holds, and a queue that only grows. -/
structure LoopStays (s s' : System) : Prop where
  failed : s'.writeback.Failed
  holds : s'.writeback.holds = s.writeback.holds
  queue : ∀ pending, s.pending = some pending → ∃ more, s'.pending = some (pending ++ more)

theorem LoopStays.step {l : Label} (h : LoopStays s₁ s) (hstore : s.StoreInv)
    (hs : s.step blake3 l = some s') : LoopStays s₁ s' := by
  have hqueue : l ≠ .writeback → ∀ pending, s₁.pending = some pending →
      ∃ more, s'.pending = some (pending ++ more) := by
    intro hl pending hp
    obtain ⟨more, hmore⟩ := h.queue pending hp
    rw [pending_step hs hl, hmore, Option.map_some, List.append_assoc]
    exact ⟨_, rfl⟩
  have hsame : l ≠ .writeback → s'.writeback = s.writeback → LoopStays s₁ s' := fun hl hw =>
    ⟨hw ▸ h.failed, hw ▸ h.holds, hqueue hl⟩
  cases l with
  | recv t m =>
    obtain ⟨-, rfl⟩ := step_recv hs
    exact hsame nofun rfl
  | handler t =>
    obtain ⟨m, hd, srv', hd', -, -, rfl⟩ := step_handler hs
    exact hsame nofun rfl
  | worker =>
    obtain ⟨srv', l2s', w', -, rfl⟩ := step_worker hs
    exact hsame nofun rfl
  | writeback =>
    obtain ⟨srv', l2s', w', hdoes, rfl⟩ := step_writeback hs
    obtain ⟨hfailed, rfl, hholds⟩ := h.failed.step hdoes
    exact ⟨hfailed, hholds.trans h.holds, h.queue⟩
  | evictor =>
    have hw : s'.writeback = s.writeback := by rw [step_evictor hs]
    exact hsame nofun hw
  | l2 i act =>
    have hset : ∀ {f g : StoreFuture}, s.writeback.futures[i]? = some f → f ≠ .raised →
        s'.writeback = s.writeback.setFutures (s.writeback.futures.set i g) →
        LoopStays s₁ s' := by
      intro f g hf hne hw
      refine ⟨hw ▸ h.failed.setFutures hf hne, ?_, hqueue nofun⟩
      rw [hw, holds_setFutures, h.holds]
    cases l2_does hs with
    | found | lookupFail => exact hsame nofun (writeback_setLookup _ _ _)
    | fill | scribble | loaded | loadFail => exact hsame nofun rfl
    | persist hf | skip hf => exact hset (g := .running _) hf nofun rfl
    | stored hf => exact hset (g := .ok) hf nofun rfl
    | storeFail ht =>
      obtain ⟨todo, hf⟩ := hstore.running ht
      exact hset (g := .raised) hf nofun rfl

/-- A store that raises fails the batch. -/
theorem failed_of_storeFail (h : s.StoreInv) {i : ℕ} (ht : s.oldest i = some .store)
    (hs : s.step blake3 (.l2 i .fail) = some s') : s'.writeback.Failed := by
  obtain ⟨todo, hf⟩ := h.running ht
  have hlt := (List.getElem?_eq_some_iff.mp hf).1
  rw [step_l2 ht] at hs
  cases hs
  rw [show ((s.popTask i).setStore i .raised).writeback =
    s.writeback.setFutures (s.writeback.futures.set i .raised) from rfl]
  cases hw : s.writeback with
  | submit locked futures =>
    rw [hw] at hlt
    exact List.mem_iff_getElem?.mpr ⟨i, List.getElem?_set_self hlt⟩
  | dead => trivial
  | _ =>
    rw [hw] at hf
    cases hf

/-- A failed batch is the end of the write-back loop : in every state that can follow, the loop is
at this batch or has ended, the batch's holds are counted, and what waits in the queue waits
still. -/
theorem failed_batch_stays (h : s.Reachable blake3) (hfailed : s.writeback.Failed)
    {ls : List Label} (hrun : Run (System.step blake3) (Distinct blake3) s ls s') :
    ¬s'.writeback.Between ∧ s'.writeback.holds = s.writeback.holds ∧
      (∀ k, (s.writeback.holds.count k : ℤ) ≤ s'.readCount k) ∧
      ∀ pending, s.pending = some pending → ∃ more, s'.pending = some (pending ++ more) := by
  have hstart : (∃ lost, s.Inv blake3 lost) ∧ s.StoreInv ∧ LoopStays s s :=
    ⟨h.inv, h.storeInv, hfailed, rfl, fun pending hp => ⟨[], by rw [hp, List.append_nil]⟩⟩
  obtain ⟨⟨lost, hinv⟩, -, hstays⟩ :=
    hrun.invariant (fun t => (∃ lost, t.Inv blake3 lost) ∧ t.StoreInv ∧ LoopStays s t) hstart
      fun _ _ _ ⟨⟨_, hinv⟩, hstore, hst⟩ hd hs =>
        ⟨⟨_, (inv_step hinv hd hs).1⟩, hstore.step hs, hst.step hstore hs⟩
  refine ⟨hstays.failed.not_between, hstays.holds, fun k => ?_, hstays.queue⟩
  rw [hinv.readCount_eq, ← hstays.holds, holds]
  simp only [Multiset.count_add]
  omega

/-- So is a store that raises. -/
theorem failed_store_stays (h : s.Reachable blake3) {i : ℕ} (ht : s.oldest i = some .store)
    (hs : s.step blake3 (.l2 i .fail) = some s₁) {ls : List Label}
    (hrun : Run (System.step blake3) (Distinct blake3) s₁ ls s') :
    ¬s'.writeback.Between ∧ s'.writeback.holds = s₁.writeback.holds ∧
      (∀ k, (s₁.writeback.holds.count k : ℤ) ≤ s'.readCount k) ∧
      ∀ pending, s₁.pending = some pending → ∃ more, s'.pending = some (pending ++ more) := by
  have hd : s.Distinct blake3 (.l2 i .fail) := trivial
  exact failed_batch_stays (h.snoc hd hs) (failed_of_storeFail h.storeInv ht hs) hrun

/-- Write-back of `sampleStore`, whose store raises, and a STORE of the prompt `[2]`. -/
def sampleFailed : List Label :=
  sampleTaken ++ [.writeback, .writeback, .l2 0 .fail, .writeback,
    .recv 2 (.store ⟨"b", 7, sampleOp 2, [[7, 8]]⟩), .handler 2, .handler 2, .handler 2, .handler 2]

/-- The store of the first batch raises : the loop ends, its chunk stays pinned, and the second
batch waits for good. -/
theorem failing_store_ends_loop : ∃ s log, replay (logStep sampleDigest) (fun p l => distinct p.1 l)
      (logNew 1 4 (fun _ => 0) 1) sampleFailed = some (s, log) ∧
    s.step sampleDigest .writeback = none ∧ log.reserved = [([sampleKey 1], [])] ∧
    log.net (sampleKey 1) = 1 ∧ s.readCount (sampleKey 1) = 1 ∧
    s.pending = some [[sampleKey 2]] ∧
    ∀ ls s', Run (System.step sampleDigest) (Distinct sampleDigest) s ls s' →
      ¬s'.writeback.Between ∧ 1 ≤ s'.readCount (sampleKey 1) ∧
        ∃ more, s'.pending = some ([sampleKey 2] :: more) := by
  have hrun : (replay (logStep sampleDigest) (fun p l => distinct p.1 l)
      (logNew 1 4 (fun _ => 0) 1) sampleFailed).map (fun p =>
        decide ((p.1.step sampleDigest .writeback).isNone ∧
          p.2.reserved = [([sampleKey 1], [])] ∧ p.2.net (sampleKey 1) = 1 ∧
          p.1.readCount (sampleKey 1) = 1 ∧ p.1.pending = some [[sampleKey 2]] ∧
          p.1.writeback = .dead [(sampleKey 1, ⟨0, 2⟩)] [.raised])) = some true := by decide
  obtain ⟨⟨s, log⟩, hs, he⟩ := Option.map_eq_some_iff.mp hrun
  obtain ⟨hstep, hres, hnet, hcount, hpending, hdead⟩ := of_decide_eq_true he
  have hdead : s.writeback = _ := hdead
  have hreach : s.Reachable sampleDigest :=
    ⟨1, 4, _, 1, _, run_of_logStep (fun s l => s.Distinct sampleDigest l)
      ((run_of_replay hs).mono fun _ _ hd => of_decide_eq_true hd)⟩
  refine ⟨s, log, hs, Option.isNone_iff_eq_none.mp hstep, hres, hnet, hcount, hpending,
    fun ls s' hrun => ?_⟩
  obtain ⟨hbetween, -, hle, hqueue⟩ := failed_batch_stays hreach (by rw [hdead]; trivial) hrun
  refine ⟨hbetween, ?_, hqueue _ hpending⟩
  have hk := hle (sampleKey 1)
  rw [hdead] at hk
  simpa [Writeback.holds] using hk

end System

end MiniLlmcache
