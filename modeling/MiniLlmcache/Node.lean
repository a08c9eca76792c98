import MiniLlmcache.L2Adapters
import MiniLlmcache.StoreFailure

/-!
# The server over its directories

In `System` what an adapter answers is free. Here every adapter is an `FSAdapter` on a directory
of its own, whose thread takes the tasks that the process queued (`System.nextTask`), makes one
access to the directory at a time, and tells the process what came of it (`System.sees`). The
process may die between any two steps; `restart` starts another one over the directories it left.

`Node.Synced` says what the thread of an adapter works on, in terms of the thread that waits for
it. `Node.exists_disk_step` : neither model holds the other up, whatever the filesystem can do next
the node can do.
-/

namespace MiniLlmcache

variable {blake3 : Bytes → Bytes}

/-! ## What the threads tell each other -/

namespace System

/-- The objects of a store, with the bytes that are in their slices. -/
def objects (s : System) (todo : List (ChunkKey × MemoryObj)) : List (ChunkKey × Bytes) :=
  todo.map fun x => (x.1, s.server.l1.bytes x.2)

/-- The keys and objects of a load that has `n` slots behind it. -/
def slotsFrom (p : Prefetch) (n : ℕ) : List (ChunkKey × ℕ) :=
  (p.load.drop n).map fun x => (x.1, x.2.nbytes)

/-- The oldest task of adapter `i`, with the arguments it was submitted with. -/
def nextTask (s : System) (i : ℕ) : Option FSTask :=
  match s.oldest i with
  | some .lookup =>
    match s.worker with
    | .lookup job _ hit _ => some (.lookup (job.keys.drop hit))
    -- another adapter's lookup raised, and nobody waits for this one any more
    | .dead job holds _ => some (.lookup (job.keys.drop holds.length))
    | _ => none
  | some .load =>
    match s.worker with
    | .loading p _ j filled none =>
      if i = j then some (.load (slotsFrom p (p.loaded + filled))) else none
    | _ => none
  | some .store =>
    match s.writeback.futures[i]? with
    | some (.running todo) => some (.store (s.objects todo))
    | _ => none
  | none => none

/-- The slice of the load under way when a file with fewer bytes was read into it. -/
def readInto (s : System) (data : Bytes) : Bytes :=
  data ++ (s.loadTarget.elim [] fun x => s.server.l1.bytes x.2).drop data.length

/-- What the process sees of an adapter's step : nothing, or what `System.l2Step` makes of it. -/
def sees (s : System) (fs : FSAdapter) : FSLabel → List L2Act
  | .fail => [.fail]
  | .next =>
    match fs.thread with
    | .store [] => [.stored]
    | .store ((key, _) :: _) =>
      if fs.files.contains (.final (filename key)) then [.persist true] else []
    | .replace key _ =>
      if fs.files.contains (.tmp (filename key)) then [.persist false] else [.fail]
    | .lookup [] hits => [.found hits]
    | .lookup (key :: _) hits =>
      if fs.files.contains (.final (filename key)) then [] else [.found hits]
    | .load [] _ => [.loaded]
    | .load ((key, nbytes) :: _) _ =>
      match fs.stored? (filename key) with
      | none => [.loaded]
      | some data =>
        if data.length < nbytes then [.fill (s.readInto data) false, .loaded]
        else [.fill (data.take nbytes) true]
    | _ => []
  | _ => []

variable (blake3) in
/-- The steps of adapter `i` that the process sees, one after the other. -/
def answer (s : System) (i : ℕ) (acts : List L2Act) : Option System :=
  replay (step blake3) (fun _ _ => true) s (acts.map (.l2 i))

end System

/-- The directory when the process dies. -/
def FSAdapter.crash (fs : FSAdapter) (left : Option Bytes) : FSAdapter :=
  { fs with files := fs.leave left, thread := .idle, result := none }

/-- The server process, and the directories of its adapters. -/
structure Node where
  system : System
  dirs : List FSAdapter
  /-- What the STOREs of the earlier processes carried (a ghost). -/
  past : List (ChunkKey × Bytes)

inductive NodeLabel
  /-- A step of the process, but for its adapters. -/
  | run (l : Label)
  /-- The thread of adapter `i` takes its oldest task. -/
  | take (i : ℕ)
  /-- The thread of adapter `i` goes on. -/
  | disk (i : ℕ) (l : FSLabel)
  /-- The process dies, and is started with a cache of its own over the directories; `left` are the
  temp files that were being written. -/
  | restart (chunkSize capacity : ℕ) (pool : ℕ → UInt8) (left : List (Option Bytes))

namespace Node

/-- A server over empty directories. -/
def new (chunkSize capacity : ℕ) (pool : ℕ → UInt8) (adapters : ℕ) : Node where
  system := .new chunkSize capacity pool adapters
  dirs := List.replicate adapters .new
  past := []

/-- Everything that a STORE ever carried. -/
def carried (n : Node) : List (ChunkKey × Bytes) := n.past ++ n.system.server.carried

variable (blake3) in
def step (n : Node) : NodeLabel → Option Node
  | .run (.l2 _ _) => none
  | .run l => (n.system.step blake3 l).map fun system => { n with system }
  | .take i =>
    (n.dirs[i]?).bind fun fs => (n.system.nextTask i).bind fun task =>
      (fs.step (.submit task)).map fun fs => { n with dirs := n.dirs.set i fs }
  | .disk _ (.submit _) | .disk _ (.crash _) => none
  | .disk i l =>
    (n.dirs[i]?).bind fun fs => (fs.step l).bind fun fs' =>
      (n.system.answer blake3 i (n.system.sees fs l)).map fun system =>
        { n with system, dirs := n.dirs.set i fs' }
  | .restart chunkSize capacity pool left => some
    { system := .new chunkSize capacity pool n.dirs.length
      dirs := n.dirs.mapIdx fun i fs => fs.crash (left.getD i none)
      past := n.carried }

/-- What a step of the node is. -/
inductive Steps (blake3 : Bytes → Bytes) (n : Node) : NodeLabel → Node → Prop
  | run {l : Label} {system : System} (hl : ∀ i act, l ≠ .l2 i act)
      (hs : n.system.step blake3 l = some system) : Steps blake3 n (.run l) { n with system }
  | take {i : ℕ} {fs fs' : FSAdapter} {task : FSTask} (hfs : n.dirs[i]? = some fs)
      (htask : n.system.nextTask i = some task) (hs : fs.step (.submit task) = some fs') :
      Steps blake3 n (.take i) { n with dirs := n.dirs.set i fs' }
  | disk {i : ℕ} {l : FSLabel} {fs fs' : FSAdapter} {system : System}
      (hl : l = .next ∨ (∃ k, l = .write k) ∨ l = .fail) (hfs : n.dirs[i]? = some fs)
      (hs : fs.step l = some fs')
      (hsys : n.system.answer blake3 i (n.system.sees fs l) = some system) :
      Steps blake3 n (.disk i l) { n with system, dirs := n.dirs.set i fs' }
  | restart (chunkSize capacity : ℕ) (pool : ℕ → UInt8) (left : List (Option Bytes)) :
      Steps blake3 n (.restart chunkSize capacity pool left)
        { system := .new chunkSize capacity pool n.dirs.length
          dirs := n.dirs.mapIdx fun i fs => fs.crash (left.getD i none)
          past := n.carried }

theorem steps_of_step {n n' : Node} {l : NodeLabel} (hs : n.step blake3 l = some n') :
    n.Steps blake3 l n' := by
  cases l with
  | run l =>
    have hrun : ∀ l : Label, (∀ i act, l ≠ .l2 i act) →
        (n.system.step blake3 l).map (fun system => ({ n with system } : Node)) = some n' →
        n.Steps blake3 (.run l) n' := by
      intro l hl hs
      obtain ⟨system, hsys, rfl⟩ := Option.map_eq_some_iff.mp hs
      exact .run hl hsys
    cases l with
    | l2 => cases hs
    | _ => exact hrun _ (by rintro _ _ ⟨⟩) hs
  | take i =>
    obtain ⟨fs, hfs, hs⟩ := Option.bind_eq_some_iff.mp hs
    obtain ⟨task, htask, hs⟩ := Option.bind_eq_some_iff.mp hs
    obtain ⟨fs', hfs', rfl⟩ := Option.map_eq_some_iff.mp hs
    exact .take hfs htask hfs'
  | disk i l =>
    have hdisk : ∀ l : FSLabel, (l = .next ∨ (∃ k, l = .write k) ∨ l = .fail) →
        ((n.dirs[i]?).bind fun fs => (fs.step l).bind fun fs' =>
          (n.system.answer blake3 i (n.system.sees fs l)).map fun system =>
            ({ n with system, dirs := n.dirs.set i fs' } : Node)) = some n' →
        n.Steps blake3 (.disk i l) n' := by
      intro l hl hs
      obtain ⟨fs, hfs, hs⟩ := Option.bind_eq_some_iff.mp hs
      obtain ⟨fs', hfs', hs⟩ := Option.bind_eq_some_iff.mp hs
      obtain ⟨system, hsys, rfl⟩ := Option.map_eq_some_iff.mp hs
      exact .disk hl hfs hfs' hsys
    cases l with
    | submit | crash => cases hs
    | next => exact hdisk _ (Or.inl rfl) hs
    | write k => exact hdisk _ (Or.inr (Or.inl ⟨k, rfl⟩)) hs
    | fail => exact hdisk _ (Or.inr (Or.inr rfl)) hs
  | restart chunkSize capacity pool left =>
    cases hs
    exact .restart chunkSize capacity pool left

end Node

/-! ## What other threads leave alone -/

namespace Writeback

theorem futures_set (w : Writeback) (j : ℕ) (f : StoreFuture) :
    (w.setFutures (w.futures.set j f)).futures = w.futures.set j f := by
  cases w <;> rfl

end Writeback

namespace System

variable {s s' : System} {lost : Multiset ChunkKey}

/-- The write-back loop has lent the adapters slices of entries that it holds. -/
structure Lent (s : System) : Prop where
  locked : ∀ x ∈ s.writeback.chunks, ∃ e, s.server.l1.entries.get? x.1 = some e ∧ e.obj = x.2
  running : ∀ f ∈ s.writeback.futures, ∀ x ∈ f.todo, x ∈ s.writeback.chunks

theorem lent_new (chunkSize capacity : ℕ) (pool : ℕ → UInt8) (adapters : ℕ) :
    (new chunkSize capacity pool adapters).Lent where
  locked x hx := by cases hx
  running f hf := by cases hf

/-- Nothing is written to a slice that was lent. -/
theorem Lent.bytes_step {l : Label} (h : s.Lent) (hinv : s.Inv blake3 lost)
    (hd : s.Distinct blake3 l) (hs : s.step blake3 l = some s') {x : ChunkKey × MemoryObj}
    (hx : x ∈ s.writeback.chunks) : s'.server.l1.bytes x.2 = s.server.l1.bytes x.2 := by
  obtain ⟨-, hev, -⟩ := inv_step hinv hd hs
  obtain ⟨e, he, hr⟩ := hinv.entry_of_chunk hx
  obtain ⟨e', he', hobj⟩ := h.locked x hx
  obtain rfl : e = e' := Option.some.inj (he.symm.trans he')
  exact hobj ▸ hev.bytes x.1 e he hr

/-- A future with no more to do takes the place of another. -/
theorem Lent.setStore (h : s.Lent) {i : ℕ} {f : StoreFuture}
    (hf : ∀ x ∈ f.todo, x ∈ s.writeback.chunks) :
    ∀ g ∈ (s.setStore i f).writeback.futures, ∀ x ∈ g.todo,
      x ∈ (s.setStore i f).writeback.chunks := by
  intro g hg x hx
  rw [System.setStore, Writeback.chunks_setFutures]
  rcases List.mem_or_eq_of_mem_set (Writeback.mem_futures_setFutures hg) with hg | rfl
  · exact h.running g hg x hx
  · exact hf x hx

theorem Lent.step {l : Label} (h : s.Lent) (hinv : s.Inv blake3 lost) (hd : s.Distinct blake3 l)
    (hs : s.step blake3 l = some s') : s'.Lent := by
  obtain ⟨hinv', hev, -⟩ := inv_step hinv hd hs
  have hlocked : s'.writeback.chunks = s.writeback.chunks →
      ∀ x ∈ s'.writeback.chunks, ∃ e, s'.server.l1.entries.get? x.1 = some e ∧ e.obj = x.2 := by
    intro hchunks x hx
    obtain ⟨e', he', -⟩ := hinv'.entry_of_chunk hx
    obtain ⟨e, he, hobj⟩ := h.locked x (hchunks ▸ hx)
    exact ⟨e', he', (hev.entry x.1 e e' he he').1.trans hobj⟩
  cases l with
  | recv t m =>
    obtain ⟨-, rfl⟩ := step_recv hs
    exact ⟨h.locked, h.running⟩
  | handler t =>
    obtain ⟨m, hd, srv', hd', -, -, rfl⟩ := step_handler hs
    exact ⟨hlocked rfl, h.running⟩
  | worker =>
    obtain ⟨srv', l2s', w', -, rfl⟩ := step_worker hs
    exact ⟨hlocked rfl, h.running⟩
  | evictor =>
    obtain rfl := step_evictor hs
    exact ⟨hlocked rfl, h.running⟩
  | writeback =>
    obtain ⟨srv', l2s', w', hdoes, rfl⟩ := step_writeback hs
    have hrun := h.running
    suffices hw : (∀ x ∈ w'.chunks, ∃ e, srv'.l1.entries.get? x.1 = some e ∧ e.obj = x.2) ∧
        ∀ f ∈ w'.futures, ∀ x ∈ f.todo, x ∈ w'.chunks from ⟨hw.1, hw.2⟩
    revert hlocked hrun
    generalize s.writeback = w at hdoes
    intro hlocked hrun
    cases hdoes with
    | @reserve keys _ =>
      exact ⟨(L1Manager.inv_reserveRead keys hinv.ledger).2.2, List.forall_mem_nil _⟩
    | submit =>
      refine ⟨hlocked rfl, fun f hf x hx => ?_⟩
      rcases List.mem_append.mp hf with hf | hf
      · exact hrun f hf x hx
      · rw [List.mem_singleton.mp hf] at hx
        exact hx
    | raised => exact ⟨hlocked rfl, hrun⟩
    | _ => exact ⟨List.forall_mem_nil _, List.forall_mem_nil _⟩
  | l2 i act =>
    cases l2_does hs with
    | found | lookupFail =>
      refine ⟨?_, ?_⟩
      · rw [writeback_setLookup, server_setLookup]
        exact h.locked
      · rw [writeback_setLookup]
        exact h.running
    | fill | scribble => exact ⟨hlocked rfl, h.running⟩
    | loaded | loadFail => exact ⟨h.locked, h.running⟩
    | persist hfut | skip hfut =>
      have hmem := h.running _ (List.mem_of_getElem? hfut)
      exact ⟨hlocked (Writeback.chunks_setFutures _ _),
        h.setStore fun x hx => hmem x (List.mem_cons_of_mem _ hx)⟩
    | stored | storeFail =>
      exact ⟨hlocked (Writeback.chunks_setFutures _ _), h.setStore (List.forall_mem_nil _)⟩

theorem oldest_submit {l2s : List Adapter} {i : ℕ} {t : Task} (j : ℕ) (task : Task)
    (ht : (tasksAt l2s i).head? = some t) :
    (tasksAt (submit l2s j task) i).head? = some t := by
  rcases tasksAt_submit l2s j task i with heq | ⟨-, heq⟩
  · rwa [heq]
  · rw [heq, List.head?_append, ht, Option.some_or]

/-- The oldest task of an adapter stays until the adapter is done with it. -/
theorem oldest_step {l : Label} {i : ℕ} {t : Task} (hl : ∀ act, l ≠ .l2 i act)
    (ht : s.oldest i = some t) (hs : s.step blake3 l = some s') : s'.oldest i = some t := by
  rw [oldest_eq] at ht ⊢
  cases l with
  | recv =>
    obtain ⟨-, rfl⟩ := step_recv hs
    exact ht
  | handler =>
    obtain ⟨m, hd, srv', hd', -, -, rfl⟩ := step_handler hs
    exact ht
  | worker =>
    obtain ⟨srv', l2s', w', hdoes, rfl⟩ := step_worker hs
    rcases Worker.l2s_step hdoes with rfl | ⟨j, task, -, rfl⟩
    · exact ht
    · exact oldest_submit j task ht
  | writeback =>
    obtain ⟨srv', l2s', w', hdoes, rfl⟩ := step_writeback hs
    rcases Writeback.l2s_step hdoes with rfl | ⟨j, rfl⟩
    · exact ht
    · exact oldest_submit j .store ht
  | evictor =>
    obtain rfl := step_evictor hs
    exact ht
  | l2 j act =>
    have hij : j ≠ i := by
      rintro rfl
      exact hl act rfl
    have hpop : (tasksAt (s.popTask j).l2s i).head? = some t := by
      rwa [tasksAt_popTask, if_neg hij]
    cases l2_does hs with
    | found | lookupFail =>
      rw [l2s_setLookup]
      exact hpop
    | fill | scribble | skip => exact ht
    | loaded | loadFail | stored | storeFail => exact hpop
    | persist =>
      rw [tasksAt_persist]
      exact ht

/-- The load of adapter `i` is where it was, or has just been submitted. -/
theorem loading_step {l : Label} {i : ℕ} (hl : ∀ act, l ≠ .l2 i act)
    (hs : s.step blake3 l = some s') :
    (∀ p order filled, s.worker = .loading p order i filled none → s'.worker = s.worker) ∧
      ∀ p order filled, s'.worker = .loading p order i filled none →
        s'.worker = s.worker ∨ filled = 0 := by
  have hsame : s'.worker = s.worker →
      (∀ p order filled, s.worker = .loading p order i filled none → s'.worker = s.worker) ∧
        ∀ p order filled, s'.worker = .loading p order i filled none →
          s'.worker = s.worker ∨ filled = 0 :=
    fun heq => ⟨fun _ _ _ _ => heq, fun _ _ _ _ => Or.inl heq⟩
  cases l with
  | recv =>
    obtain ⟨-, rfl⟩ := step_recv hs
    exact hsame rfl
  | handler =>
    obtain ⟨m, hd, srv', hd', -, -, rfl⟩ := step_handler hs
    exact hsame rfl
  | worker =>
    obtain ⟨srv', l2s', w', hdoes, rfl⟩ := step_worker hs
    refine ⟨fun p order filled hw => ?_, fun p order filled hw => ?_⟩
    · rw [hw] at hdoes
      cases hdoes
    · obtain rfl : w' = _ := hw
      generalize s.worker = w at hdoes
      cases hdoes with
      | submitLoad => exact Or.inr rfl
  | writeback =>
    obtain ⟨srv', l2s', w', -, rfl⟩ := step_writeback hs
    exact hsame rfl
  | evictor =>
    obtain rfl := step_evictor hs
    exact hsame rfl
  | l2 j act =>
    have hij : j ≠ i := by
      rintro rfl
      exact hl act rfl
    have hother : ∀ {p : Prefetch} {order : List ℕ} {filled : ℕ} {f : Future},
        s.worker = .loading p order j filled none →
        ∀ p' order' filled', s.worker ≠ .loading p' order' i filled' f := by
      intro p order filled f hw p' order' filled' hw'
      rw [hw] at hw'
      cases hw'
      exact hij rfl
    cases l2_does hs with
    | found | lookupFail =>
      unfold setLookup
      split
      · rename_i hw
        have hw : s.worker = _ := hw
        refine ⟨fun p order filled hload => ?_, by rintro _ _ _ ⟨⟩⟩
        rw [hw] at hload
        cases hload
      · exact ⟨fun _ _ _ _ => rfl, fun _ _ _ _ => Or.inl rfl⟩
    | fill hw =>
      refine ⟨fun p order filled hload => (hother hw _ _ _ hload).elim, ?_⟩
      rintro p order filled ⟨⟩
      exact (hij rfl).elim
    | loaded hw | loadFail hw =>
      exact ⟨fun p order filled hload => (hother hw _ _ _ hload).elim, by rintro _ _ _ ⟨⟩⟩
    | scribble => exact ⟨fun _ _ _ _ => rfl, fun _ _ _ _ => Or.inl rfl⟩
    | persist | skip | stored | storeFail =>
      exact ⟨fun _ _ _ _ => rfl, fun _ _ _ _ => Or.inl rfl⟩

/-- The store of adapter `i` is where it was, or has just been submitted. -/
theorem running_step {l : Label} {i : ℕ} (hl : ∀ act, l ≠ .l2 i act)
    (hs : s.step blake3 l = some s') :
    (∀ rest, s.writeback.futures[i]? = some (.running rest) →
      s'.writeback.futures[i]? = some (.running rest)) ∧
    ∀ rest, s'.writeback.futures[i]? = some (.running rest) → rest = s'.writeback.chunks ∨
      (s.writeback.futures[i]? = some (.running rest) ∧
        s'.writeback.chunks = s.writeback.chunks) := by
  have hsame : s'.writeback.futures[i]? = s.writeback.futures[i]? →
      s'.writeback.chunks = s.writeback.chunks → (∀ rest,
        s.writeback.futures[i]? = some (.running rest) →
          s'.writeback.futures[i]? = some (.running rest)) ∧
      ∀ rest, s'.writeback.futures[i]? = some (.running rest) → rest = s'.writeback.chunks ∨
        (s.writeback.futures[i]? = some (.running rest) ∧
          s'.writeback.chunks = s.writeback.chunks) :=
    fun heq hchunks => ⟨fun _ hrun => heq.trans hrun,
      fun _ hrun => Or.inr ⟨heq.symm.trans hrun, hchunks⟩⟩
  cases l with
  | recv =>
    obtain ⟨-, rfl⟩ := step_recv hs
    exact hsame rfl rfl
  | handler =>
    obtain ⟨m, hd, srv', hd', -, -, rfl⟩ := step_handler hs
    exact hsame rfl rfl
  | worker =>
    obtain ⟨srv', l2s', w', -, rfl⟩ := step_worker hs
    exact hsame rfl rfl
  | evictor =>
    obtain rfl := step_evictor hs
    exact hsame rfl rfl
  | writeback =>
    obtain ⟨srv', l2s', w', hdoes, rfl⟩ := step_writeback hs
    revert hsame
    dsimp only
    generalize s.writeback = w at hdoes
    intro hsame
    cases hdoes with
    | @submit locked futures hlt =>
      refine ⟨fun rest hrun => ?_, fun rest hrun => ?_⟩
      · have hlt' := (List.getElem?_eq_some_iff.mp hrun).1
        exact (List.getElem?_append_left hlt').trans hrun
      · rcases Nat.lt_or_ge i futures.length with hlt' | hge
        · exact Or.inr ⟨(List.getElem?_append_left hlt').symm.trans hrun, rfl⟩
        · have hnew := List.mem_of_getElem? ((List.getElem?_append_right hge).symm.trans hrun)
          rw [List.mem_singleton] at hnew
          cases hnew
          exact Or.inl rfl
    | raised => exact hsame rfl rfl
    | stored hall =>
      refine ⟨fun rest hrun => ?_, by rintro _ ⟨⟩⟩
      cases Writeback.eq_ok_of_await hall _ (List.mem_of_getElem? hrun)
    | _ => exact ⟨by rintro _ ⟨⟩, by rintro _ ⟨⟩⟩
  | l2 j act =>
    have hij : j ≠ i := by
      rintro rfl
      exact hl act rfl
    have hset : ∀ f, (s.writeback.setFutures (s.writeback.futures.set j f)).futures[i]? =
        s.writeback.futures[i]? := fun f => by
      rw [Writeback.futures_set, List.getElem?_set_ne hij]
    cases l2_does hs with
    | found | lookupFail =>
      rw [writeback_setLookup]
      exact ⟨fun _ => id, fun _ hrun => Or.inr ⟨hrun, rfl⟩⟩
    | fill | scribble | loaded | loadFail => exact hsame rfl rfl
    | persist | skip | stored | storeFail =>
      exact hsame (hset _) (Writeback.chunks_setFutures _ _)

/-! ## What an adapter's thread works on -/

end System

namespace FSThread

/-- The kind of task that is under way. -/
def task : FSThread → Option Task
  | .idle => none
  | .store _ | .write _ _ _ _ | .replace _ _ => some .store
  | .lookup _ _ => some .lookup
  | .load _ _ => some .load

/-- The thread has these objects to store. -/
def Stores : FSThread → List (ChunkKey × Bytes) → Prop
  | .store todo, items => todo = items
  | .write key blob _ todo, items => (key, blob) :: todo = items
  | .replace key todo, items => ∃ blob, (key, blob) :: todo = items
  | _, _ => False

end FSThread

namespace System

variable {s s' : System} {lost : Multiset ChunkKey}

/-- The thread of adapter `i` works on what the process waits for, from where the process takes it
to be. -/
structure Synced (s : System) (i : ℕ) (fs : FSAdapter) : Prop where
  oldest : ∀ task, fs.thread.task = some task → s.oldest i = some task
  loading : ∀ todo loaded, fs.thread = .load todo loaded → ∃ p order,
    s.worker = .loading p order i loaded none ∧ todo = slotsFrom p (p.loaded + loaded)
  unloaded : fs.thread.task ≠ some .load → ∀ p order filled,
    s.worker = .loading p order i filled none → filled = 0
  storing : fs.thread.task = some .store → ∃ rest,
    s.writeback.futures[i]? = some (.running rest) ∧ fs.thread.Stores (s.objects rest)
  unstored : fs.thread.task ≠ some .store → ∀ rest,
    s.writeback.futures[i]? = some (.running rest) → rest = s.writeback.chunks

theorem synced_new (chunkSize capacity : ℕ) (pool : ℕ → UInt8) (adapters i : ℕ) {fs : FSAdapter}
    (h : fs.thread = .idle) : (new chunkSize capacity pool adapters).Synced i fs where
  oldest task ht := by
    rw [h] at ht
    cases ht
  loading todo loaded ht := by
    rw [h] at ht
    cases ht
  unloaded _ p order filled hw := by cases hw
  storing ht := by
    rw [h] at ht
    cases ht
  unstored _ rest hrun := by cases hrun

theorem objects_congr {rest : List (ChunkKey × MemoryObj)}
    (h : ∀ x ∈ rest, s'.server.l1.bytes x.2 = s.server.l1.bytes x.2) :
    s'.objects rest = s.objects rest :=
  List.map_congr_left fun x hx => by rw [h x hx]

/-- A step of another thread. -/
theorem Synced.other {l : Label} {i : ℕ} {fs : FSAdapter} (h : s.Synced i fs) (hlent : s.Lent)
    (hinv : s.Inv blake3 lost) (hd : s.Distinct blake3 l) (hl : ∀ act, l ≠ .l2 i act)
    (hs : s.step blake3 l = some s') : s'.Synced i fs := by
  obtain ⟨hloading, hloading'⟩ := loading_step hl hs
  obtain ⟨hrunning, hrunning'⟩ := running_step hl hs
  refine ⟨fun task ht => oldest_step hl (h.oldest task ht) hs, ?_, ?_, ?_, ?_⟩
  · intro todo loaded ht
    obtain ⟨p, order, hw, htodo⟩ := h.loading todo loaded ht
    exact ⟨p, order, (hloading p order _ hw).trans hw, htodo⟩
  · intro ht p order filled hw
    rcases hloading' p order filled hw with heq | hzero
    · exact h.unloaded ht p order filled (heq ▸ hw)
    · exact hzero
  · intro ht
    obtain ⟨rest, hrun, hstores⟩ := h.storing ht
    have hobjects : s'.objects rest = s.objects rest := objects_congr fun x hx =>
      hlent.bytes_step hinv hd hs (hlent.running _ (List.mem_of_getElem? hrun) x hx)
    exact ⟨rest, hrunning rest hrun, hobjects ▸ hstores⟩
  · intro ht rest hrun
    rcases hrunning' rest hrun with hall | ⟨hrun, hchunks⟩
    · exact hall
    · rw [hchunks]
      exact h.unstored ht rest hrun

/-- The thread takes its oldest task. -/
theorem Synced.take {i : ℕ} {fs fs' : FSAdapter} {task : FSTask} (h : s.Synced i fs)
    (htask : s.nextTask i = some task) (hs : fs.step (.submit task) = some fs') :
    s.Synced i fs' := by
  simp only [FSAdapter.step, Option.ite_none_right_eq_some, Option.some.injEq] at hs
  obtain ⟨hidle, rfl⟩ := hs
  have hunloaded := h.unloaded (by simp [hidle, FSThread.task])
  have hunstored := h.unstored (by simp [hidle, FSThread.task])
  unfold nextTask at htask
  split at htask
  · rename_i hold
    obtain ⟨keys, rfl⟩ : ∃ keys, task = .lookup keys := by
      split at htask <;> cases htask <;> exact ⟨_, rfl⟩
    refine ⟨?_, by rintro _ _ ⟨⟩, fun _ => hunloaded, by rintro ⟨⟩, fun _ => hunstored⟩
    rintro _ ⟨⟩
    exact hold
  · rename_i hold
    split at htask
    · rename_i p order j filled hw
      split_ifs at htask with hij
      subst hij
      cases htask
      refine ⟨?_, ?_, by rintro h; exact (h rfl).elim, by rintro ⟨⟩, fun _ => hunstored⟩
      · rintro _ ⟨⟩
        exact hold
      · rintro _ _ ⟨⟩
        obtain rfl := hunloaded p order filled hw
        exact ⟨p, order, hw, rfl⟩
    · cases htask
  · rename_i hold
    split at htask
    · rename_i todo hrun
      cases htask
      refine ⟨?_, by rintro _ _ ⟨⟩, fun _ => hunloaded, fun _ => ⟨todo, hrun, rfl⟩,
        by rintro h; exact (h rfl).elim⟩
      rintro _ ⟨⟩
      exact hold
    · cases htask
  · cases htask

/-! ## The thread's own steps -/

theorem answer_cons (s : System) (i : ℕ) (act : L2Act) (acts : List L2Act) :
    s.answer blake3 i (act :: acts) =
      (s.step blake3 (.l2 i act)).bind fun t => t.answer blake3 i acts := rfl

theorem answer_singleton (s : System) (i : ℕ) (act : L2Act) :
    s.answer blake3 i [act] = s.step blake3 (.l2 i act) :=
  Option.bind_fun_some _

/-- What every step of an adapter keeps, its answers keep. -/
theorem answer_invariant {i : ℕ} (I : System → Prop) : ∀ {acts : List L2Act} {s : System},
    s.answer blake3 i acts = some s' → I s →
    (∀ t, ∀ act ∈ acts, ∀ t', I t → t.step blake3 (.l2 i act) = some t' → I t') → I s'
  | [], _, hs, h, _ => by
    cases hs
    exact h
  | _ :: _, s, hs, h, hstep => by
    rw [answer_cons] at hs
    obtain ⟨t, ht, hs⟩ := Option.bind_eq_some_iff.mp hs
    exact answer_invariant I hs (hstep s _ List.mem_cons_self t h ht)
      fun u act hact => hstep u act (List.mem_cons_of_mem _ hact)

theorem loading_setLookup {i j : ℕ} {r : Except Exc ℕ} {p : Prefetch} {order : List ℕ}
    {filled : ℕ} {f : Future} (h : (s.setLookup i r).worker = .loading p order j filled f) :
    s.worker = .loading p order j filled f := by
  unfold setLookup at h
  split at h
  · cases h
  · exact h

theorem running_setStore {i : ℕ} {f : StoreFuture} {rest : List (ChunkKey × MemoryObj)}
    (h : (s.setStore i f).writeback.futures[i]? = some (.running rest)) : f = .running rest := by
  rw [setStore, Writeback.futures_set, List.getElem?_set, if_pos rfl] at h
  split_ifs at h
  exact Option.some.inj h

/-- A thread that is done with its task. -/
theorem synced_idle {i : ℕ} {fs : FSAdapter} (hidle : fs.thread = .idle)
    (hload : ∀ p order filled, s.worker = .loading p order i filled none → filled = 0)
    (hstore : ∀ rest, s.writeback.futures[i]? = some (.running rest) → rest = s.writeback.chunks) :
    s.Synced i fs := by
  refine ⟨?_, ?_, fun _ => hload, ?_, fun _ => hstore⟩ <;> rw [hidle]
  · rintro _ ⟨⟩
  · rintro _ _ ⟨⟩
  · rintro ⟨⟩

section disk

variable {i : ℕ} {fs fs' : FSAdapter}

/-- The thread's future is resolved, with a result or with what was raised. -/
theorem Synced.ends {task : Task} {act : L2Act} (h : s.Synced i fs)
    (htask : fs.thread.task = some task) (hidle : fs'.thread = .idle)
    (hfill : ∀ data complete, act ≠ .fill data complete) (hpersist : ∀ skip, act ≠ .persist skip)
    (hs : s.step blake3 (.l2 i act) = some s') : s'.Synced i fs' := by
  have hold := h.oldest task htask
  have hother : ∀ {t}, s.oldest i = some t → fs.thread.task = some t := by
    intro t ht
    rw [htask, ← hold, ht]
  cases l2_does hs with
  | found _ ht | lookupFail ht =>
    have hnot : ∀ t ≠ Task.lookup, fs.thread.task ≠ some t := by
      intro t hne heq
      rw [hother ht] at heq
      exact hne (Option.some.inj heq).symm
    refine synced_idle hidle (fun p order filled hw => ?_) ?_
    · have hw : (s.popTask i).worker = .loading p order i filled none := loading_setLookup hw
      exact h.unloaded (hnot _ (by decide)) p order filled hw
    · rw [writeback_setLookup]
      exact h.unstored (hnot _ (by decide))
  | loaded _ ht | loadFail _ ht =>
    refine synced_idle hidle (by rintro _ _ _ ⟨⟩) (h.unstored ?_)
    rw [hother ht]
    decide
  | stored _ ht | storeFail ht =>
    refine synced_idle hidle (h.unloaded ?_) fun rest hrun => ?_
    · rw [hother ht]
      decide
    · cases running_setStore hrun
  | fill | scribble => exact (hfill _ _ rfl).elim
  | persist | skip => exact (hpersist _ rfl).elim

/-- An object has its file. -/
theorem Synced.persist {skip : Bool} {todo : List (ChunkKey × Bytes)} (h : s.Synced i fs)
    (htask : fs.thread.task = some .store)
    (hstores : ∀ items, fs.thread.Stores items → items.tail = todo)
    (hthread : fs'.thread = .store todo) (hs : s.step blake3 (.l2 i (.persist skip)) = some s') :
    s'.Synced i fs' := by
  obtain ⟨rest, hrun, hitems⟩ := h.storing htask
  have htail := hstores _ hitems
  have hold := h.oldest _ htask
  have hset : ∀ {x} {rest' : List (ChunkKey × MemoryObj)},
      s.writeback.futures[i]? = some (.running (x :: rest')) →
      (s.setStore i (.running rest')).Synced i fs' := by
    intro x rest' hrun'
    obtain rfl : rest = x :: rest' := by
      rw [hrun] at hrun'
      cases hrun'
      rfl
    refine ⟨?_, ?_, ?_, ?_, ?_⟩ <;> rw [hthread]
    · rintro _ ⟨⟩
      exact hold
    · rintro _ _ ⟨⟩
    · intro _ p order filled hw
      refine h.unloaded ?_ p order filled hw
      rw [htask]
      decide
    · intro _
      refine ⟨rest', ?_, htail.symm⟩
      rw [setStore, Writeback.futures_set,
        List.getElem?_set_self (List.getElem?_eq_some_iff.mp hrun).1]
    · intro hne
      exact (hne rfl).elim
  cases l2_does hs with
  | persist hf =>
    have hsynced := hset hf
    refine ⟨fun task ht => ?_, hsynced.loading, hsynced.unloaded, hsynced.storing,
      hsynced.unstored⟩
    rw [oldest_eq, tasksAt_persist, ← oldest_eq]
    exact hsynced.oldest task ht
  | skip hf => exact hset hf

/-- A slot is filled and counted. -/
theorem Synced.fill {slot : ChunkKey × ℕ} {todo : List (ChunkKey × ℕ)} {loaded : ℕ} {data : Bytes}
    (h : s.Synced i fs) (hthread : fs.thread = .load (slot :: todo) loaded)
    (hthread' : fs'.thread = .load todo (loaded + 1))
    (hs : s.step blake3 (.l2 i (.fill data true)) = some s') : s'.Synced i fs' := by
  obtain ⟨p, order, hw, htodo⟩ := h.loading _ _ hthread
  have hold := h.oldest .load (by rw [hthread]; rfl)
  have hunstored := h.unstored (by rw [hthread]; rintro ⟨⟩)
  cases l2_does hs with
  | fill hw' hget hlen =>
    rw [hw] at hw'
    cases hw'
    refine ⟨?_, ?_, ?_, ?_, fun _ => hunstored⟩ <;> rw [hthread']
    · rintro _ ⟨⟩
      exact hold
    · rintro _ _ ⟨⟩
      refine ⟨p, order, rfl, ?_⟩
      have htail := congrArg List.tail htodo
      rwa [List.tail_cons, slotsFrom, ← List.map_tail, List.tail_drop] at htail
    · intro hne
      exact (hne rfl).elim
    · rintro ⟨⟩

/-- A slot is filled in part. -/
theorem Synced.scribble {data : Bytes} (h : s.Synced i fs) (htask : fs.thread.task = some .load)
    (hs : s.step blake3 (.l2 i (.fill data false)) = some s') : s'.Synced i fs := by
  cases l2_does hs with
  | scribble =>
    refine ⟨h.oldest, h.loading, h.unloaded, ?_, h.unstored⟩
    rw [htask]
    rintro ⟨⟩

/-- The thread goes on with the same objects, and the process sees nothing of it. -/
theorem Synced.moves (h : s.Synced i fs) (htask : fs'.thread.task = fs.thread.task)
    (hload : fs.thread.task ≠ some .load)
    (hstores : ∀ items, fs.thread.Stores items → fs'.thread.Stores items) : s.Synced i fs' := by
  refine ⟨fun task ht => h.oldest task (htask ▸ ht), fun todo loaded ht => ?_,
    fun _ => h.unloaded hload, fun ht => ?_, fun hne => h.unstored (htask ▸ hne)⟩
  · rw [← htask, ht] at hload
    exact (hload rfl).elim
  · obtain ⟨rest, hrun, hitems⟩ := h.storing (htask ▸ ht)
    exact ⟨rest, hrun, hstores _ hitems⟩

theorem Synced.next (h : s.Synced i fs) (hs : fs.next = some fs')
    (hsys : s.answer blake3 i (s.sees fs .next) = some s') : s'.Synced i fs' := by
  unfold FSAdapter.next at hs
  simp only [sees] at hsys
  -- a step that ends the task, and what the process sees of it
  have hends : ∀ {task act}, fs.thread.task = some task → fs'.thread = .idle →
      (∀ data complete, act ≠ .fill data complete) → (∀ skip, act ≠ .persist skip) →
      s.answer blake3 i [act] = some s' → s'.Synced i fs' := by
    intro task act htask hidle hfill hpersist hact
    rw [answer_singleton] at hact
    exact h.ends htask hidle hfill hpersist hact
  split at hs <;> rename_i ht <;> rw [ht] at hsys
  case h_1 => cases hs
  case h_2 =>
    cases hs
    exact hends (by rw [ht]; rfl) rfl (by rintro _ _ ⟨⟩) (by rintro _ ⟨⟩) hsys
  case h_3 key blob todo =>
    dsimp only at hsys
    split_ifs at hs hsys with hthere
    · cases hs
      rw [answer_singleton] at hsys
      refine h.persist (by rw [ht]; rfl) (fun items hitems => ?_) rfl hsys
      rw [ht] at hitems
      exact hitems ▸ rfl
    · cases hs
      cases hsys
      refine h.moves (by rw [ht]; rfl) (by rw [ht]; rintro ⟨⟩) fun items hitems => ?_
      rw [ht] at hitems
      exact hitems
  case h_4 key blob count todo =>
    split_ifs at hs with hcount
    cases hs
    cases hsys
    refine h.moves (by rw [ht]; rfl) (by rw [ht]; rintro ⟨⟩) fun items hitems => ?_
    rw [ht] at hitems
    exact ⟨blob, hitems⟩
  case h_5 key todo =>
    dsimp only at hsys
    rw [OrderedDict.contains] at hsys
    split at hs <;> rename_i hget <;> rw [hget] at hsys
    · cases hs
      exact hends (by rw [ht]; rfl) rfl (by rintro _ _ ⟨⟩) (by rintro _ ⟨⟩) hsys
    · cases hs
      rw [Option.isSome_some, if_pos rfl, answer_singleton] at hsys
      refine h.persist (by rw [ht]; rfl) (fun items hitems => ?_) rfl hsys
      rw [ht] at hitems
      obtain ⟨blob, hitems⟩ := hitems
      exact hitems ▸ rfl
  case h_6 =>
    cases hs
    exact hends (by rw [ht]; rfl) rfl (by rintro _ _ ⟨⟩) (by rintro _ ⟨⟩) hsys
  case h_7 key todo hits =>
    dsimp only at hsys
    rw [OrderedDict.contains] at hsys
    rw [FSAdapter.stored?] at hs
    split at hs <;> rename_i hget <;> rw [hget] at hsys
    · cases hs
      exact hends (by rw [ht]; rfl) rfl (by rintro _ _ ⟨⟩) (by rintro _ ⟨⟩) hsys
    · cases hs
      rw [Option.isSome_some, if_pos rfl] at hsys
      cases hsys
      refine h.moves (by rw [ht]; rfl) (by rw [ht]; rintro ⟨⟩) fun items hitems => ?_
      rw [ht] at hitems
      exact hitems
  case h_8 =>
    cases hs
    exact hends (by rw [ht]; rfl) rfl (by rintro _ _ ⟨⟩) (by rintro _ ⟨⟩) hsys
  case h_9 key nbytes todo loaded =>
    dsimp only at hsys
    split at hs <;> rename_i hget <;> rw [hget] at hsys
    · cases hs
      exact hends (by rw [ht]; rfl) rfl (by rintro _ _ ⟨⟩) (by rintro _ ⟨⟩) hsys
    · dsimp only at hsys
      split_ifs at hs hsys with hlen
      · cases hs
        rw [answer_cons] at hsys
        obtain ⟨t, hfill, hsys⟩ := Option.bind_eq_some_iff.mp hsys
        have htask : fs.thread.task = some .load := by rw [ht]; rfl
        rw [answer_singleton] at hsys
        exact (h.scribble htask hfill).ends htask rfl (by rintro _ _ ⟨⟩) (by rintro _ ⟨⟩) hsys
      · cases hs
        rw [answer_singleton] at hsys
        exact h.fill ht rfl hsys

/-- Whatever the thread does next. -/
theorem Synced.disk {l : FSLabel} (h : s.Synced i fs)
    (hl : l = .next ∨ (∃ k, l = .write k) ∨ l = .fail) (hs : fs.step l = some fs')
    (hsys : s.answer blake3 i (s.sees fs l) = some s') : s'.Synced i fs' := by
  rcases hl with rfl | ⟨k, rfl⟩ | rfl
  · exact h.next hs hsys
  · cases hsys
    simp only [FSAdapter.step, FSAdapter.write] at hs
    split at hs
    · rename_i ht
      split_ifs at hs
      cases hs
      refine h.moves (by rw [ht]; rfl) (by rw [ht]; rintro ⟨⟩) fun items hitems => ?_
      rw [ht] at hitems
      exact hitems
    · cases hs
  · simp only [FSAdapter.step, Option.ite_none_left_eq_some, Option.some.injEq] at hs
    obtain ⟨hbusy, rfl⟩ := hs
    obtain ⟨task, htask⟩ : ∃ task, fs.thread.task = some task := by
      cases ht : fs.thread with
      | idle => exact (hbusy ht).elim
      | _ => exact ⟨_, rfl⟩
    rw [sees, answer_singleton] at hsys
    exact h.ends htask rfl (by rintro _ _ ⟨⟩) (by rintro _ ⟨⟩) hsys

end disk

/-! ## The process can follow -/

/-- The task of adapter `i` has its arguments. -/
theorem exists_nextTask {i : ℕ} {task : Task} (htasks : TaskInv s.l2s s.worker)
    (hstore : s.StoreInv) (ht : s.oldest i = some task) : ∃ args, s.nextTask i = some args := by
  unfold nextTask
  rw [ht]
  have hawaits : task ≠ .store → s.worker.Awaits i task := fun hne => (htasks.oldest ht hne).1
  cases task with
  | lookup =>
    have haw := hawaits (by decide)
    cases hw : s.worker with
    | lookup | dead => exact ⟨_, rfl⟩
    | _ =>
      rw [hw] at haw
      cases haw
  | load =>
    have haw := hawaits (by decide)
    cases hw : s.worker with
    | loading p order j filled future =>
      rw [hw] at haw
      obtain ⟨rfl, rfl⟩ := haw
      exact ⟨_, if_pos rfl⟩
    | _ =>
      rw [hw] at haw
      cases haw
  | store =>
    obtain ⟨todo, hrun⟩ := hstore.running ht
    dsimp only
    rw [hrun]
    exact ⟨_, rfl⟩

section follow

variable {i : ℕ} {fs fs' : FSAdapter}

/-- The process takes note of an exception. -/
theorem Synced.exists_fail (h : s.Synced i fs) (hbusy : fs.thread ≠ .idle) :
    ∃ t, s.answer blake3 i [.fail] = some t := by
  rw [answer_singleton]
  cases ht : fs.thread with
  | idle => exact (hbusy ht).elim
  | store | write | replace =>
    rw [step_l2 (h.oldest .store (by rw [ht]; rfl))]
    exact ⟨_, rfl⟩
  | lookup =>
    rw [step_l2 (h.oldest .lookup (by rw [ht]; rfl))]
    exact ⟨_, rfl⟩
  | load todo loaded =>
    obtain ⟨p, order, hw, -⟩ := h.loading todo loaded ht
    rw [step_l2 (h.oldest .load (by rw [ht]; rfl))]
    simp only [l2Step, hw]
    exact ⟨_, if_pos trivial⟩

theorem Synced.exists_found {todo : List ChunkKey} {hits : ℕ} (h : s.Synced i fs)
    (ht : fs.thread = .lookup todo hits) : ∃ t, s.answer blake3 i [.found hits] = some t := by
  rw [answer_singleton, step_l2 (h.oldest .lookup (by rw [ht]; rfl))]
  exact ⟨_, rfl⟩

theorem Synced.exists_loaded {todo : List (ChunkKey × ℕ)} {loaded : ℕ} (h : s.Synced i fs)
    (ht : fs.thread = .load todo loaded) : ∃ t, s.answer blake3 i [.loaded] = some t := by
  obtain ⟨p, order, hw, -⟩ := h.loading todo loaded ht
  rw [answer_singleton, step_l2 (h.oldest .load (by rw [ht]; rfl))]
  simp only [l2Step, hw]
  exact ⟨_, if_pos trivial⟩

theorem Synced.exists_stored (h : s.Synced i fs) (ht : fs.thread = .store []) :
    ∃ t, s.answer blake3 i [.stored] = some t := by
  obtain ⟨rest, hrun, hitems⟩ := h.storing (by rw [ht]; rfl)
  rw [ht] at hitems
  obtain rfl := List.map_eq_nil_iff.mp hitems.symm
  rw [answer_singleton, step_l2 (h.oldest .store (by rw [ht]; rfl))]
  simp only [l2Step, hrun]
  exact ⟨_, rfl⟩

theorem Synced.exists_persist (skip : Bool) (h : s.Synced i fs)
    (htask : fs.thread.task = some .store) (hitems : ∀ items, fs.thread.Stores items → items ≠ []) :
    ∃ t, s.answer blake3 i [.persist skip] = some t := by
  obtain ⟨rest, hrun, hstores⟩ := h.storing htask
  obtain ⟨x, rest', rfl⟩ := List.exists_cons_of_ne_nil fun hnil =>
    hitems _ hstores (List.map_eq_nil_iff.mpr hnil)
  rw [answer_singleton, step_l2 (h.oldest .store htask)]
  simp only [l2Step, hrun]
  cases skip <;> exact ⟨_, rfl⟩

/-- The slot that the thread reads into is the one that the process takes it to be. -/
theorem Synced.target {slot : ChunkKey × ℕ} {todo : List (ChunkKey × ℕ)} {loaded : ℕ}
    (h : s.Synced i fs) (ht : fs.thread = .load (slot :: todo) loaded) :
    ∃ p order x, s.worker = .loading p order i loaded none ∧
      p.load[p.loaded + loaded]? = some x ∧ slot = (x.1, x.2.nbytes) := by
  obtain ⟨p, order, hw, htodo⟩ := h.loading _ _ ht
  refine ⟨p, order, ?_⟩
  obtain ⟨x, rest, hdrop, hslot, -⟩ := List.map_eq_cons_iff.mp htodo.symm
  refine ⟨x, hw, ?_, hslot.symm⟩
  have hhead := congrArg (·[0]?) hdrop
  simpa using hhead

variable (blake3) in
theorem Synced.exists_fill {slot : ChunkKey × ℕ} {todo : List (ChunkKey × ℕ)} {loaded : ℕ}
    {data : Bytes} (complete : Bool) (h : s.Synced i fs)
    (ht : fs.thread = .load (slot :: todo) loaded) (hlen : data.length = slot.2) :
    ∃ t, s.step blake3 (.l2 i (.fill data complete)) = some t := by
  obtain ⟨p, order, ⟨key, obj⟩, hw, hget, rfl⟩ := h.target ht
  rw [step_l2 (h.oldest .load (by rw [ht]; rfl))]
  simp only [l2Step, hw, if_true, hget, if_pos hlen]
  cases complete <;> exact ⟨_, rfl⟩

/-- Whatever the filesystem lets the thread do, the process can take note of. -/
theorem Synced.exists_next (h : s.Synced i fs) (hs : fs.next = some fs') :
    ∃ t, s.answer blake3 i (s.sees fs .next) = some t := by
  unfold FSAdapter.next at hs
  simp only [sees]
  split at hs <;> rename_i ht
  case h_1 => cases hs
  case h_2 =>
    rw [ht]
    exact h.exists_stored ht
  case h_3 key blob todo =>
    rw [ht]
    dsimp only
    split_ifs
    · refine h.exists_persist true (by rw [ht]; rfl) fun items hitems => ?_
      rw [ht] at hitems
      exact hitems ▸ List.cons_ne_nil _ _
    · exact ⟨s, rfl⟩
  case h_4 =>
    rw [ht]
    exact ⟨s, rfl⟩
  case h_5 key todo =>
    rw [ht]
    dsimp only
    split_ifs
    · refine h.exists_persist false (by rw [ht]; rfl) fun items hitems => ?_
      rw [ht] at hitems
      obtain ⟨blob, hitems⟩ := hitems
      exact hitems ▸ List.cons_ne_nil _ _
    · exact h.exists_fail (by rw [ht]; rintro ⟨⟩)
  case h_6 =>
    rw [ht]
    exact h.exists_found ht
  case h_7 key todo hits =>
    rw [ht]
    dsimp only
    split_ifs
    · exact ⟨s, rfl⟩
    · exact h.exists_found ht
  case h_8 =>
    rw [ht]
    exact h.exists_loaded ht
  case h_9 key nbytes todo loaded =>
    rw [ht]
    dsimp only
    split
    · exact h.exists_loaded ht
    · rename_i data hdata
      split_ifs with hlen
      · have hread : (s.readInto data).length = nbytes := by
          obtain ⟨p, order, x, hw, hget, hslot⟩ := h.target ht
          obtain rfl : nbytes = x.2.nbytes := congrArg Prod.snd hslot
          have htarget : s.loadTarget = some x := by
            rw [loadTarget, hw]
            exact hget
          rw [readInto, htarget, Option.elim_some, List.length_append, List.length_drop,
            L1Manager.bytes, PoolAllocator.length_bytes]
          omega
        obtain ⟨t, hfill⟩ := h.exists_fill blake3 false ht hread
        rw [answer_cons, hfill]
        exact (h.scribble (by rw [ht]; rfl) hfill).exists_loaded ht
      · rw [answer_singleton]
        exact h.exists_fill blake3 true ht (List.length_take_of_le (Nat.le_of_not_lt hlen))

end follow

variable (blake3) in
/-- What every step of the process keeps. -/
structure Sane (s : System) : Prop where
  inv : ∃ lost, s.Inv blake3 lost
  lent : s.Lent
  tasks : TaskInv s.l2s s.worker
  store : s.StoreInv

theorem sane_new (chunkSize capacity : ℕ) (pool : ℕ → UInt8) (adapters : ℕ) :
    (new chunkSize capacity pool adapters).Sane blake3 :=
  ⟨⟨0, inv_new _ _ _ _⟩, lent_new _ _ _ _, taskInv_new _ _ _ _, storeInv_new _ _ _ _⟩

theorem Sane.step {l : Label} (h : s.Sane blake3) (hd : s.Distinct blake3 l)
    (hs : s.step blake3 l = some s') : s'.Sane blake3 := by
  obtain ⟨lost, hinv⟩ := h.inv
  exact ⟨⟨_, (inv_step hinv hd hs).1⟩, h.lent.step hinv hd hs, h.tasks.step hs, h.store.step hs⟩

end System

/-! ## The node -/

namespace Node

variable {n n' : Node}

variable (blake3) in
/-- The chunk hashes of the messages do not collide. -/
def Distinct (n : Node) : NodeLabel → Prop
  | .run l => n.system.Distinct blake3 l
  | _ => True

instance (n : Node) (l : NodeLabel) : Decidable (n.Distinct blake3 l) := by
  unfold Distinct
  split <;> infer_instance

variable (blake3) in
/-- Each adapter has a directory, and its thread and the process agree on what it does. -/
structure Coherent (n : Node) : Prop where
  sane : n.system.Sane blake3
  length : n.dirs.length = n.system.l2s.length
  synced : ∀ (i : ℕ) (fs : FSAdapter), n.dirs[i]? = some fs → n.system.Synced i fs
  reachable : ∀ (i : ℕ) (fs : FSAdapter), n.dirs[i]? = some fs → fs.Reachable

theorem coherent_new (chunkSize capacity : ℕ) (pool : ℕ → UInt8) (adapters : ℕ) :
    (new chunkSize capacity pool adapters).Coherent blake3 where
  sane := System.sane_new _ _ _ _
  length := by simp [new, System.new]
  synced i fs hfs := by
    rw [List.eq_of_mem_replicate (List.mem_of_getElem? hfs)]
    exact System.synced_new _ _ _ _ _ rfl
  reachable i fs hfs := by
    rw [List.eq_of_mem_replicate (List.mem_of_getElem? hfs)]
    exact ⟨[], .refl⟩

/-- A directory after one more step. -/
theorem reachable_step {fs fs' : FSAdapter} {l : FSLabel} (h : fs.Reachable)
    (hs : fs.step l = some fs') : fs'.Reachable := by
  obtain ⟨labels, hrun⟩ := h
  exact ⟨_, hrun.snoc trivial hs⟩

/-- The directories after a step of one of them. -/
theorem eq_or_getElem?_of_set {dirs : List FSAdapter} {i j : ℕ} {fs fs' : FSAdapter}
    (h : (dirs.set i fs')[j]? = some fs) : (i = j ∧ fs = fs') ∨ (i ≠ j ∧ dirs[j]? = some fs) := by
  by_cases hij : i = j
  · rw [List.getElem?_set, if_pos hij] at h
    split_ifs at h
    exact Or.inl ⟨hij, (Option.some.inj h).symm⟩
  · rw [List.getElem?_set_ne hij] at h
    exact Or.inr ⟨hij, h⟩

/-- The answers of adapter `i` leave the process coherent with the other adapters. -/
theorem Coherent.answer {i : ℕ} {acts : List L2Act} {system : System} (h : n.Coherent blake3)
    (hs : n.system.answer blake3 i acts = some system) : system.Sane blake3 ∧
      system.l2s.length = n.system.l2s.length ∧
      ∀ j, i ≠ j → ∀ fs, n.dirs[j]? = some fs → system.Synced j fs := by
  refine System.answer_invariant (fun t => t.Sane blake3 ∧ t.l2s.length = n.system.l2s.length ∧
    ∀ j, i ≠ j → ∀ fs, n.dirs[j]? = some fs → t.Synced j fs) hs
    ⟨h.sane, rfl, fun j _ fs hfs => h.synced j fs hfs⟩ ?_
  rintro t act - t' ⟨hsane, hlen, hsynced⟩ hstep
  obtain ⟨lost, hinv⟩ := hsane.inv
  have hd : t.Distinct blake3 (.l2 i act) := trivial
  refine ⟨hsane.step hd hstep, (System.length_l2s hstep).trans hlen, fun j hij fs hfs => ?_⟩
  refine (hsynced j hij fs hfs).other hsane.lent hinv hd ?_ hstep
  rintro act' ⟨⟩
  exact hij rfl

theorem Coherent.step {l : NodeLabel} (h : n.Coherent blake3) (hd : n.Distinct blake3 l)
    (hs : n.step blake3 l = some n') : n'.Coherent blake3 := by
  obtain ⟨lost, hinv⟩ := h.sane.inv
  cases steps_of_step hs with
  | run hl hsys =>
    refine ⟨h.sane.step hd hsys, h.length.trans (System.length_l2s hsys).symm, fun i fs hfs => ?_,
      h.reachable⟩
    exact (h.synced i fs hfs).other h.sane.lent hinv hd (fun act => hl i act) hsys
  | @take i fs fs' task hfs htask hstep =>
    refine ⟨h.sane, (List.length_set ..).trans h.length, fun j fs₁ hfs₁ => ?_, fun j fs₁ hfs₁ => ?_⟩
    · rcases eq_or_getElem?_of_set hfs₁ with ⟨rfl, rfl⟩ | ⟨-, hfs₁⟩
      · exact (h.synced _ _ hfs).take htask hstep
      · exact h.synced j fs₁ hfs₁
    · rcases eq_or_getElem?_of_set hfs₁ with ⟨rfl, rfl⟩ | ⟨-, hfs₁⟩
      · exact reachable_step (h.reachable _ _ hfs) hstep
      · exact h.reachable j fs₁ hfs₁
  | @disk i l fs fs' system hl hfs hstep hsys =>
    obtain ⟨hsane, hlen, hother⟩ := h.answer hsys
    refine ⟨hsane, ?_, fun j fs₁ hfs₁ => ?_, fun j fs₁ hfs₁ => ?_⟩
    · exact (List.length_set ..).trans (h.length.trans hlen.symm)
    · rcases eq_or_getElem?_of_set hfs₁ with ⟨rfl, rfl⟩ | ⟨hij, hfs₁⟩
      · exact (h.synced _ _ hfs).disk hl hstep hsys
      · exact hother j hij fs₁ hfs₁
    · rcases eq_or_getElem?_of_set hfs₁ with ⟨rfl, rfl⟩ | ⟨-, hfs₁⟩
      · exact reachable_step (h.reachable _ _ hfs) hstep
      · exact h.reachable j fs₁ hfs₁
  | restart chunkSize capacity pool left =>
    have hcrash : ∀ {i : ℕ} {fs : FSAdapter},
        (n.dirs.mapIdx fun i fs => fs.crash (left.getD i none))[i]? = some fs →
        ∃ fs₀ : FSAdapter, n.dirs[i]? = some fs₀ ∧ fs = fs₀.crash (left.getD i none) := by
      intro i fs hfs
      rw [List.getElem?_mapIdx] at hfs
      obtain ⟨fs₀, hfs₀, rfl⟩ := Option.map_eq_some_iff.mp hfs
      exact ⟨fs₀, hfs₀, rfl⟩
    refine ⟨System.sane_new _ _ _ _, by simp [System.new], fun i fs hfs => ?_, fun i fs hfs => ?_⟩
    · obtain ⟨fs₀, -, rfl⟩ := hcrash hfs
      exact System.synced_new _ _ _ _ _ rfl
    · obtain ⟨fs₀, hfs₀, rfl⟩ := hcrash hfs
      have hstep : fs₀.step (.crash (left.getD i none)) = some (fs₀.crash (left.getD i none)) := rfl
      exact reachable_step (h.reachable i fs₀ hfs₀) hstep

/-- An adapter's thread that has a task takes it when it is done with the one before. -/
theorem Coherent.exists_take (h : n.Coherent blake3) {i : ℕ} {fs : FSAdapter} {task : Task}
    (hfs : n.dirs[i]? = some fs) (hidle : fs.thread = .idle)
    (ht : n.system.oldest i = some task) : ∃ n', n.step blake3 (.take i) = some n' := by
  obtain ⟨args, hargs⟩ := System.exists_nextTask h.sane.tasks h.sane.store ht
  rw [Node.step, hfs, hargs, Option.bind_some, Option.bind_some, FSAdapter.step, if_pos hidle]
  exact ⟨_, rfl⟩

/-- What the filesystem can do next, the node can do. -/
theorem Coherent.exists_disk_step (h : n.Coherent blake3) {i : ℕ} {fs fs' : FSAdapter} {l : FSLabel}
    (hl : l = .next ∨ (∃ k, l = .write k) ∨ l = .fail) (hfs : n.dirs[i]? = some fs)
    (hs : fs.step l = some fs') : ∃ n', n.step blake3 (.disk i l) = some n' := by
  have hsynced := h.synced i fs hfs
  obtain ⟨system, hsys⟩ :
      ∃ t, n.system.answer blake3 i (n.system.sees fs l) = some t := by
    rcases hl with rfl | ⟨k, rfl⟩ | rfl
    · exact hsynced.exists_next hs
    · exact ⟨_, rfl⟩
    · refine hsynced.exists_fail fun hidle => ?_
      simp only [FSAdapter.step, if_pos hidle] at hs
      cases hs
  rcases hl with rfl | ⟨k, rfl⟩ | rfl <;>
    exact ⟨_, by simp only [Node.step, hfs, hs, hsys, Option.bind_some, Option.map_some]; rfl⟩

end Node

end MiniLlmcache
