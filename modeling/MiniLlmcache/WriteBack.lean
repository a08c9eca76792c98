import MiniLlmcache.Failure
import MiniLlmcache.Integrity
import MiniLlmcache.Recency
import MiniLlmcache.SessionFrame

/-!
# What write-back mirrors

`finish_write` announces a batch of keys, later the write-back loop takes it from its queue and
reserves it, and later still each adapter reads the chunks. A `Log` beside the system says what was
announced and what was reserved; with a batch it notes the keys that were not readable when the loop
reserved it. The queue is first in, first out, so reserved are the first of the batches announced,
and what is not yet reserved stands in the queue or with the loop (`Mirror.fifo`).

`Mirror.stored` : of a batch that was reserved, a key is left out because it was not readable then,
or it is in the adapter, or the adapter has yet to take it. When the loop is idle there is none of
the last kind (`writeback_mirrors`).
-/

namespace MiniLlmcache

variable {blake3 : Bytes → Bytes}

namespace L1Manager

variable {l1 l1' : L1Manager}

/-- The keys without an entry, or whose entry is being written. -/
def unreadable (l1 : L1Manager) (keys : List ChunkKey) : List ChunkKey :=
  keys.filter fun k => !(l1.entries.get? k).any Entry.readable

theorem mem_unreadable {keys : List ChunkKey} {k : ChunkKey} :
    k ∈ l1.unreadable keys ↔ k ∈ keys ∧ ¬l1.Readable k := by
  rw [unreadable, List.mem_filter, Bool.not_eq_true', Bool.eq_false_iff, Ne, Option.any_eq_true]
  simp [Readable, Entry.readable]

/-- `reserve_read` leaves out only what is not readable. -/
theorem mem_lockedKeys {k : ChunkKey} : ∀ (keys : List ChunkKey) {l1 : L1Manager}, k ∈ keys →
    l1.Readable k → k ∈ (lockedKeys (l1.reserveRead keys).1).map Prod.fst
  | key :: keys, l1, hk, hr => by
    rw [reserveRead]
    split
    · rename_i he
      rcases List.mem_cons.mp hk with rfl | hk
      · obtain ⟨e, he', -⟩ := hr
        rw [he] at he'
        cases he'
      · exact mem_lockedKeys keys hk hr
    · rename_i e he
      split_ifs with hread
      · rcases List.mem_cons.mp hk with rfl | hk
        · exact List.mem_cons_self
        · have hhold : l1.Silent (l1.hold key e) := silent_of_get? he rfl
          exact List.mem_cons_of_mem _ (mem_lockedKeys keys hk ((hhold.readable k).mpr hr))
      · rcases List.mem_cons.mp hk with rfl | hk
        · obtain ⟨e', he', hw⟩ := hr
          obtain rfl : e = e' := Option.some.inj (he.symm.trans he')
          exact (hread (by rw [Entry.readable, hw]; rfl)).elim
        · exact mem_lockedKeys keys hk hr

/-- A key of a batch is left out as not readable, or locked. -/
theorem unreadable_or_locked (l1 : L1Manager) {keys : List ChunkKey} {k : ChunkKey}
    (hk : k ∈ keys) :
    k ∈ l1.unreadable keys ∨ k ∈ (lockedKeys (l1.reserveRead keys).1).map Prod.fst := by
  by_cases hr : l1.Readable k
  · exact Or.inr (mem_lockedKeys keys hk hr)
  · exact Or.inl (mem_unreadable.mpr ⟨hk, hr⟩)

theorem length_lockedKeys_le : ∀ (keys : List ChunkKey) (l1 : L1Manager),
    (lockedKeys (l1.reserveRead keys).1).length ≤ keys.length
  | [], _ => le_rfl
  | k :: keys, l1 => by
    rw [reserveRead]
    split
    · exact (length_lockedKeys_le keys l1).trans (Nat.le_succ _)
    · split_ifs
      · exact Nat.succ_le_succ (length_lockedKeys_le keys _)
      · exact (length_lockedKeys_le keys l1).trans (Nat.le_succ _)

/-! ## The queue -/

theorem pending_finishWriteLoop {all : List ChunkKey} : ∀ (keys : List ChunkKey) {l1 : L1Manager},
    (∀ l1', finishWrite.loop all l1 keys = .returned l1' () →
      l1'.listeners.pending = l1.listeners.pending.map (· ++ [all])) ∧
    ∀ l1' e, finishWrite.loop all l1 keys = .raised l1' e →
      l1'.listeners.pending = l1.listeners.pending
  | [], l1 => by
    refine ⟨fun l1' h => ?_, by rintro _ _ ⟨⟩⟩
    cases h
    rfl
  | k :: keys, l1 => by
    rw [finishWrite.loop]
    split
    · refine ⟨by rintro _ ⟨⟩, fun l1' e h => ?_⟩
      cases h
      rfl
    · exact pending_finishWriteLoop keys

theorem pending_finishWriteAndReserveReadLoop {all : List ChunkKey} :
    ∀ (keys : List ChunkKey) (l1 : L1Manager),
      (finishWriteAndReserveRead.loop all l1 keys).state.listeners.pending = l1.listeners.pending
  | [], _ => rfl
  | k :: keys, l1 => by
    rw [finishWriteAndReserveRead.loop]
    split
    · rfl
    · exact pending_finishWriteAndReserveReadLoop keys _

theorem pending_of_finishWriteAndReserveRead {l1 l1' : L1Manager} {keys : List ChunkKey}
    (h : (l1.finishWriteAndReserveRead keys).state = l1') :
    l1'.listeners.pending = l1.listeners.pending :=
  h ▸ pending_finishWriteAndReserveReadLoop keys l1

theorem pending_finishReadLoop : ∀ (keys freed touched : List ChunkKey) (l1 : L1Manager),
    (finishRead.loop l1 keys freed touched).state.listeners.pending = l1.listeners.pending
  | [], freed, touched, l1 => by
    rw [finishRead.loop]
    split_ifs <;> rfl
  | k :: keys, freed, touched, l1 => by
    rw [finishRead.loop]
    split
    · rfl
    · dsimp only
      split_ifs
      · exact pending_finishReadLoop keys _ _ _
      · exact pending_finishReadLoop keys _ _ _

theorem pending_of_finishRead {l1 l1' : L1Manager} {keys : List ChunkKey}
    (h : (l1.finishRead keys).state = l1') : l1'.listeners.pending = l1.listeners.pending :=
  h ▸ pending_finishReadLoop keys [] [] l1

theorem pending_deleteLoop {force : Bool} : ∀ (keys deleted : List ChunkKey) (l1 : L1Manager),
    (delete.loop force l1 keys deleted).2.listeners.pending = l1.listeners.pending
  | [], deleted, l1 => by
    rw [delete.loop]
    split_ifs <;> rfl
  | k :: keys, deleted, l1 => by
    rw [delete.loop]
    split
    · exact pending_deleteLoop keys deleted l1
    · split_ifs
      · exact pending_deleteLoop keys deleted l1
      · exact pending_deleteLoop keys _ _

end L1Manager

/-! ## Announcements -/

namespace Handler

/-- The batch that the handler announces in this step. -/
def announces (srv : CacheServer) : Handler → List (List ChunkKey)
  | storeCopy filled [] =>
    match srv.l1.finishWrite (filled.map StoreItem.key) with
    | .returned _ _ => [filled.map StoreItem.key]
    | .raised _ _ => []
  | _ => []

theorem l1_dispatch (srv : CacheServer) (m : Req) : (dispatch blake3 srv m).1.l1 = srv.l1 := by
  cases m with
  | retrieve p | store p =>
    simp only [dispatch]
    split <;> rfl
  | _ => rfl

/-- Handlers put into the queue what they announce. -/
theorem pending_step {srv srv' : CacheServer} {hd hd' : Handler}
    (hs : hd.Does blake3 srv srv' hd') : srv'.l1.listeners.pending =
      srv.l1.listeners.pending.map (· ++ hd.announces srv) := by
  have hnone : ∀ q : Option (List (List ChunkKey)), q = q.map (· ++ []) := fun q => by simp
  cases hs with
  | dispatch m =>
    rw [l1_dispatch]
    exact hnone _
  | reserve keys n chunks =>
    exact (congrArg _ (L1Manager.silent_reserveWrite _ _ _ _).listeners).trans (hnone _)
  | @finishWrite filled l1 hl1 =>
    rw [announces, hl1]
    exact (L1Manager.pending_finishWriteLoop _).1 _ hl1
  | @finishWriteFail filled l1 e hl1 =>
    rw [announces, hl1]
    exact ((L1Manager.pending_finishWriteLoop _).2 _ _ hl1).trans (hnone _)
  | promote requestId keys =>
    exact (congrArg _ (L1Manager.silent_promote _ _).listeners).trans (hnone _)
  | release hrel =>
    rw [CacheServer.eq_of_releaseHeld.1 _ hrel]
    exact hnone _
  | releaseFail hrel =>
    rw [CacheServer.eq_of_releaseHeld.2 _ hrel]
    exact hnone _
  | finishRead hl1 | finishReadFail hl1 =>
    exact (L1Manager.pending_of_finishRead (congrArg _ hl1)).trans (hnone _)
  | _ => exact hnone _

end Handler

theorem Worker.pending_step {srv srv' : CacheServer} {l2s l2s' : List Adapter} {w w' : Worker}
    (hs : w.Does srv l2s srv' l2s' w') : srv'.l1.listeners.pending = srv.l1.listeners.pending := by
  cases hs with
  | unknown | allInL1 | inL1 => exact congrArg _ (L1Manager.silent_holdAll _ _).listeners
  | full | reserve => exact congrArg _ (L1Manager.silent_reserveWrite _ _ _ _).listeners
  | finishWrite hl1 | finishWriteFail hl1 =>
    exact L1Manager.pending_of_finishWriteAndReserveRead (congrArg _ hl1)
  | cleanup => exact L1Manager.pending_deleteLoop _ _ _
  | finishRead hl1 | finishReadFail hl1 => exact L1Manager.pending_of_finishRead (congrArg _ hl1)
  | _ => rfl

theorem Evictor.pending_step (srv : CacheServer) (e : Evictor) :
    (e.step srv).1.l1.listeners.pending = srv.l1.listeners.pending := by
  cases e with
  | delete victims => exact L1Manager.pending_deleteLoop _ _ _
  | _ => rfl

/-! ## The log -/

namespace Writeback

/-- The batch that is taken from the queue and not reserved yet. -/
def taken : Writeback → List (List ChunkKey)
  | reserve keys => [keys]
  | _ => []

/-- The keys of the batch that adapter `i` still has to take. -/
def due (i : ℕ) : Writeback → List ChunkKey
  | submit locked futures | dead locked futures =>
    ((futures[i]?).elim locked StoreFuture.todo).map Prod.fst
  | _ => []

/-- The loop waits for a future of every adapter. -/
theorem length_le_of_finishRead {srv srv' : CacheServer} {l2s l2s' : List Adapter}
    {locked : List (ChunkKey × MemoryObj)} {futures : List StoreFuture} {keys : List ChunkKey}
    (hs : (submit locked futures).step srv l2s = some (srv', l2s', finishRead keys)) :
    l2s.length ≤ futures.length := by
  rw [step] at hs
  split_ifs at hs with hlt
  · cases hs
  · omega

theorem due_submit (locked : List (ChunkKey × MemoryObj)) (futures : List StoreFuture) (i : ℕ) :
    (submit locked (futures ++ [.running locked])).due i = (submit locked futures).due i := by
  simp only [due]
  rcases lt_trichotomy i futures.length with hlt | rfl | hgt
  · rw [List.getElem?_append_left hlt]
  · rw [List.getElem?_concat_length, List.getElem?_eq_none le_rfl]
    rfl
  · rw [List.getElem?_eq_none (by simpa using Nat.succ_le_of_lt hgt),
      List.getElem?_eq_none (by omega)]

theorem due_of_future {w : Writeback} {i : ℕ} {f : StoreFuture} (hf : w.futures[i]? = some f) :
    w.due i = f.todo.map Prod.fst := by
  cases w with
  | submit | dead =>
    rw [futures] at hf
    rw [due, hf]
    rfl
  | _ => cases hf

theorem due_setFutures {w : Writeback} {i j : ℕ} {f g : StoreFuture}
    (hf : w.futures[i]? = some f) : (w.setFutures (w.futures.set i g)).due j =
      if i = j then g.todo.map Prod.fst else w.due j := by
  have hlt := (List.getElem?_eq_some_iff.mp hf).1
  cases w with
  | submit | dead =>
    simp only [futures] at hlt
    simp only [setFutures, futures, due]
    split_ifs with hij
    · subst hij
      rw [List.getElem?_set_self hlt]
      rfl
    · rw [List.getElem?_set_ne hij]
  | _ => cases hf

theorem taken_setFutures (w : Writeback) (fs : List StoreFuture) :
    (w.setFutures fs).taken = w.taken := by
  cases w <;> rfl

/-- Every store has returned. -/
theorem eq_ok_of_await : ∀ {futures : List StoreFuture}, await futures = some true →
    ∀ f ∈ futures, f = .ok
  | [], _, f, hf => by cases hf
  | .running _ :: _, h, _, _ => by cases h
  | .raised :: _, h, _, _ => by cases h
  | .ok :: futures, h, f, hf => by
    rcases List.mem_cons.mp hf with rfl | hf
    · rfl
    · have h : await futures = some true := h
      exact eq_ok_of_await h f hf

end Writeback

/-- The keys that adapter `i` has stored. -/
def keysAt (l2s : List Adapter) (i : ℕ) : List ChunkKey := (storedAt l2s i).map Prod.fst

/-- What was announced to write-back and what it has done (a ghost). -/
structure Log where
  /-- The batches announced by `finish_write`, oldest first. -/
  announced : List (List ChunkKey)
  /-- The batches that the loop has reserved, each with its keys that were not readable then. -/
  reserved : List (List ChunkKey × List ChunkKey)
  /-- What the loop's own steps have added to the read counts. -/
  net : ChunkKey → ℤ

namespace System

variable {s s' : System} {lost : Multiset ChunkKey} {log : Log}

/-- The queue of the write-back loop, or `none` without L2 adapters. -/
def pending (s : System) : Option (List (List ChunkKey)) := s.server.l1.listeners.pending

/-- The batch announced in this step. -/
def announces (s : System) : Label → List (List ChunkKey)
  | .handler t => (s.handlers.get? t).elim [] fun q => q.2.announces s.server
  | _ => []

/-- The batch that the loop reserves in this step, and the keys of it that are not readable. -/
def reserves (s : System) : Label → List (List ChunkKey × List ChunkKey)
  | .writeback => s.writeback.taken.map fun keys => (keys, s.server.l1.unreadable keys)
  | _ => []

/-- The log after a step from `s` to `s'`. -/
def nextLog (s s' : System) (log : Log) (l : Label) : Log where
  announced := log.announced ++ s.announces l
  reserved := log.reserved ++ s.reserves l
  net k := log.net k + if l = .writeback then s'.readCount k - s.readCount k else 0

variable (blake3) in
/-- The system beside its log. -/
def logStep (p : System × Log) (l : Label) : Option (System × Log) :=
  (p.1.step blake3 l).map fun s => (s, p.1.nextLog s p.2 l)

/-- A start with an empty log. -/
def logNew (chunkSize capacity : ℕ) (pool : ℕ → UInt8) (adapters : ℕ) : System × Log :=
  (new chunkSize capacity pool adapters, ⟨[], [], fun _ => 0⟩)

/-- No `store` raises, and one leaves out only a chunk that the adapter has already. -/
def Keeps (s : System) : Label → Prop
  | .l2 i .fail => s.oldest i ≠ some .store
  | .l2 i (.persist true) => ∀ k ∈ (s.writeback.due i).head?, k ∈ keysAt s.l2s i
  | _ => True

instance (s : System) (l : Label) : Decidable (s.Keeps l) := by
  unfold Keeps
  split <;> infer_instance

theorem pending_step {l : Label} (hs : s.step blake3 l = some s') (hl : l ≠ .writeback) :
    s'.pending = s.pending.map (· ++ s.announces l) := by
  have hnone : s.pending = s.pending.map (· ++ []) := by simp
  cases l with
  | recv t m =>
    obtain ⟨-, rfl⟩ := step_recv hs
    exact hnone
  | handler t =>
    obtain ⟨m, hd, srv', hd', hget, hdoes, rfl⟩ := step_handler hs
    rw [announces, hget]
    exact Handler.pending_step hdoes
  | worker =>
    obtain ⟨srv', l2s', w', hdoes, rfl⟩ := step_worker hs
    exact (Worker.pending_step hdoes).trans hnone
  | writeback => exact (hl rfl).elim
  | evictor =>
    rw [step_evictor hs]
    exact (Evictor.pending_step _ _).trans hnone
  | l2 i act =>
    cases l2_does hs with
    | found | lookupFail =>
      rw [pending, server_setLookup]
      exact hnone
    | _ => exact hnone

theorem length_l2s {l : Label} (hs : s.step blake3 l = some s') :
    s'.l2s.length = s.l2s.length := by
  have hsubmit : ∀ (l2s : List Adapter) (i : ℕ) (task : Task),
      (submit l2s i task).length = l2s.length := fun _ _ _ => List.length_modify _ _ _
  cases l with
  | recv t m =>
    obtain ⟨-, rfl⟩ := step_recv hs
    rfl
  | handler t =>
    obtain ⟨m, hd, srv', hd', -, -, rfl⟩ := step_handler hs
    rfl
  | worker =>
    obtain ⟨srv', l2s', w', hdoes, rfl⟩ := step_worker hs
    generalize s.worker = w at hdoes
    cases hdoes with
    | submitLookup | submitLoad => exact hsubmit _ _ _
    | _ => rfl
  | writeback =>
    obtain ⟨srv', l2s', w', hdoes, rfl⟩ := step_writeback hs
    rcases Writeback.l2s_step hdoes with rfl | ⟨i, rfl⟩
    · rfl
    · exact hsubmit _ _ _
  | evictor => rw [step_evictor hs]
  | l2 i act =>
    cases l2_does hs with
    | found | lookupFail =>
      rw [l2s_setLookup]
      exact List.length_modify _ _ _
    | loaded | loadFail | persist | stored | storeFail => exact List.length_modify _ _ _
    | fill | scribble | skip => rfl

/-! ## The invariant -/

/-- What is announced is reserved or waits its turn, and what is reserved is stored, left out as
unreadable, or still to be stored. -/
structure Mirror (s : System) (log : Log) : Prop where
  fifo : ∀ pending, s.pending = some pending →
    log.announced = log.reserved.map Prod.fst ++ (s.writeback.taken ++ pending)
  stored : ∀ i < s.l2s.length, ∀ q ∈ log.reserved, ∀ k ∈ q.1,
    k ∈ q.2 ∨ k ∈ s.writeback.due i ∨ k ∈ keysAt s.l2s i

theorem keysAt_submit (l2s : List Adapter) (i j : ℕ) (task : Task) :
    keysAt (submit l2s j task) i = keysAt l2s i := by
  rw [keysAt, storedAt_submit, keysAt]

theorem keysAt_popTask (s : System) (i j : ℕ) : keysAt (s.popTask j).l2s i = keysAt s.l2s i := by
  rw [keysAt, storedAt_popTask, keysAt]

/-- A step that reserves no batch : what it adds to the queue it announces, and what was due and
is no more, an adapter has. -/
theorem Mirror.move {l : Label} (h : s.Mirror log) (hs : s.step blake3 l = some s')
    (hreserves : s.reserves l = [])
    (hqueue : ∀ after, s'.pending = some after → ∃ before, s.pending = some before ∧
      s'.writeback.taken ++ after = s.writeback.taken ++ before ++ s.announces l)
    (hdue : ∀ i < s.l2s.length, ∀ k, k ∈ s.writeback.due i ∨ k ∈ keysAt s.l2s i →
      k ∈ s'.writeback.due i ∨ k ∈ keysAt s'.l2s i) : s'.Mirror (s.nextLog s' log l) := by
  refine ⟨fun after hafter => ?_, fun i hi q hq k hk => ?_⟩
  · obtain ⟨before, hbefore, heq⟩ := hqueue after hafter
    simp only [nextLog, hreserves, List.append_nil, heq, h.fifo before hbefore, List.append_assoc]
  · simp only [nextLog, hreserves, List.append_nil] at hq
    rw [length_l2s hs] at hi
    exact (h.stored i hi q hq k hk).imp_right (hdue i hi k)

/-- The other threads announce, and adapters take what is due. -/
theorem Mirror.of_due {l : Label} (h : s.Mirror log) (hs : s.step blake3 l = some s')
    (hl : l ≠ .writeback) (htaken : s'.writeback.taken = s.writeback.taken)
    (hdue : ∀ i < s.l2s.length, ∀ k, k ∈ s.writeback.due i ∨ k ∈ keysAt s.l2s i →
      k ∈ s'.writeback.due i ∨ k ∈ keysAt s'.l2s i) : s'.Mirror (s.nextLog s' log l) := by
  have hreserves : s.reserves l = [] := by
    cases l with
    | writeback => exact (hl rfl).elim
    | _ => rfl
  refine h.move hs hreserves (fun after hafter => ?_) hdue
  rw [pending_step hs hl, Option.map_eq_some_iff] at hafter
  obtain ⟨before, hbefore, rfl⟩ := hafter
  exact ⟨before, hbefore, by rw [htaken, List.append_assoc]⟩

/-- The loop reserves its batch. -/
theorem Mirror.reserve {keys : List ChunkKey} (h : s.Mirror log)
    (hw : s.writeback = .reserve keys) (htaken : s'.writeback.taken = [])
    (hpending : s'.pending = s.pending) (hl2s : s'.l2s = s.l2s)
    (hdue : ∀ i, s'.writeback.due i =
      (L1Manager.lockedKeys (s.server.l1.reserveRead keys).1).map Prod.fst) :
    s'.Mirror (s.nextLog s' log .writeback) := by
  obtain ⟨hfifo, hstored⟩ := h
  rw [hw] at hfifo hstored
  have hreserves : s.reserves .writeback = [(keys, s.server.l1.unreadable keys)] := by
    rw [reserves, hw]
    rfl
  refine ⟨fun pending hp => ?_, fun i hi q hq k hk => ?_⟩
  · rw [hpending] at hp
    simp only [nextLog, announces, hreserves, htaken, hfifo pending hp, List.append_nil,
      List.map_append, List.append_assoc]
    rfl
  · rw [hl2s] at hi ⊢
    rw [hdue]
    rcases List.mem_append.mp hq with hq | hq
    · rcases hstored i hi q hq k hk with hout | hdue | hkeys
      · exact Or.inl hout
      · cases hdue
      · exact Or.inr (Or.inr hkeys)
    · rw [hreserves, List.mem_singleton] at hq
      subst hq
      exact (s.server.l1.unreadable_or_locked hk).imp_right Or.inl

theorem Mirror.writeback (h : s.Mirror log) (hs : s.step blake3 .writeback = some s') :
    s'.Mirror (s.nextLog s' log .writeback) := by
  have hmove := h.move hs
  obtain ⟨⟨srv', l2s', w'⟩, hstep, rfl⟩ := Option.map_eq_some_iff.mp hs
  have hdoes := Writeback.does_of_step hstep
  rcases hwb : s.writeback with _ | keys | ⟨locked, futures⟩ | keys | ⟨locked, futures⟩
  case reserve =>
    rw [hwb] at hdoes
    have hpending := congrArg Listeners.pending
      (L1Manager.silent_reserveRead keys s.server.l1).listeners
    cases hdoes with
    | evicted hnone => exact h.reserve hwb rfl hpending rfl fun i => by rw [hnone]; rfl
    | reserve hsome => exact h.reserve hwb rfl hpending rfl fun i => rfl
  all_goals
    rw [hwb] at hdoes hstep
    simp only [reserves, announces, List.append_nil, hwb, Writeback.taken, List.map_nil,
      List.nil_append, true_implies] at hmove
  case idle =>
    cases hdoes with
    | take hp =>
      refine hmove (fun after hafter => ⟨_, hp, ?_⟩) fun _ _ _ hk => hk
      cases hafter
      rfl
  case submit =>
    cases hdoes with
    | submit hlt =>
      refine hmove (fun after hafter => ⟨after, hafter, rfl⟩) fun i _ k hk => ?_
      rwa [Writeback.due_submit, keysAt_submit]
    | stored hawait =>
      refine hmove (fun after hafter => ⟨after, hafter, rfl⟩) fun i hi k hk => ?_
      have hlt := hi.trans_le (Writeback.length_le_of_finishRead hstep)
      have hok := Writeback.eq_ok_of_await hawait _ (List.getElem_mem hlt)
      rw [Writeback.due, List.getElem?_eq_getElem hlt, hok] at hk
      exact hk
    | raised hawait =>
      exact hmove (fun after hafter => ⟨after, hafter, rfl⟩) fun _ _ _ hk => hk
  case finishRead =>
    cases hdoes with
    | finishRead hl1 | finishReadFail hl1 =>
      have hpending := L1Manager.pending_of_finishRead (congrArg Outcome.state hl1)
      refine hmove (fun after hafter => ⟨after, ?_, rfl⟩) fun _ _ _ hk => hk
      exact hpending.symm.trans hafter
  case dead => cases hdoes

/-- Adapter `i` is done with a chunk, or with its store. -/
theorem Mirror.of_setStore {i : ℕ} {act : L2Act} {f g : StoreFuture} (h : s.Mirror log)
    (hs : s.step blake3 (.l2 i act) = some s') (hf : s.writeback.futures[i]? = some f)
    (hw : s'.writeback = (s.setStore i g).writeback)
    (hkeys : ∀ j k, k ∈ keysAt s.l2s j → k ∈ keysAt s'.l2s j)
    (htodo : ∀ p ∈ f.todo, p ∈ g.todo ∨ p.1 ∈ keysAt s'.l2s i) :
    s'.Mirror (s.nextLog s' log (.l2 i act)) := by
  have hset : s'.writeback = s.writeback.setFutures (s.writeback.futures.set i g) := hw
  refine h.of_due hs nofun ?_ fun j _ k hk => ?_
  · rw [hset, Writeback.taken_setFutures]
  · rw [hset, Writeback.due_setFutures hf]
    rcases hk with hk | hk
    · split_ifs with hij
      · subst hij
        rw [Writeback.due_of_future hf] at hk
        obtain ⟨p, hp, rfl⟩ := List.mem_map.mp hk
        exact (htodo p hp).imp_left fun hp => List.mem_map_of_mem hp
      · exact Or.inl hk
    · exact Or.inr (hkeys j k hk)

theorem keysAt_persist (l2s : List Adapter) (i : ℕ) (p : ChunkKey × Bytes) (j : ℕ) :
    keysAt (l2s.modify i fun a => { a with stored := a.stored ++ [p] }) j =
      if i = j ∧ j < l2s.length then keysAt l2s j ++ [p.1] else keysAt l2s j := by
  rw [keysAt, keysAt, storedAt, storedAt, List.getElem?_modify]
  rcases ha : l2s[j]? with _ | a
  · have hle := List.getElem?_eq_none_iff.mp ha
    rw [if_neg (by omega)]
    rfl
  · have hlt := (List.getElem?_eq_some_iff.mp ha).1
    by_cases hij : i = j
    · simp [hij, hlt]
    · simp [hij]

/-- Only an adapter that is there makes steps. -/
theorem lt_of_l2 {i : ℕ} {act : L2Act} (hs : s.step blake3 (.l2 i act) = some s') :
    i < s.l2s.length := by
  by_contra hge
  rw [System.step, List.getElem?_eq_none (by omega)] at hs
  cases hs

theorem Mirror.l2 {i : ℕ} {act : L2Act} (h : s.Mirror log) (hk : s.Keeps (.l2 i act))
    (hs : s.step blake3 (.l2 i act) = some s') : s'.Mirror (s.nextLog s' log (.l2 i act)) := by
  have hsame : (∀ j, keysAt s'.l2s j = keysAt s.l2s j) → s'.writeback = s.writeback →
      s'.Mirror (s.nextLog s' log (.l2 i act)) := by
    intro hkeys hw
    refine h.of_due hs nofun (by rw [hw]) fun j _ k hjk => ?_
    rwa [hw, hkeys]
  cases l2_does hs with
  | found | lookupFail =>
    refine hsame (fun j => ?_) (writeback_setLookup _ _ _)
    rw [l2s_setLookup, keysAt_popTask]
  | fill | scribble => exact hsame (fun _ => rfl) rfl
  | loaded | loadFail => exact hsame (fun _ => keysAt_popTask _ _ _) rfl
  | @persist key obj todo hf =>
    have hi := lt_of_l2 hs
    refine h.of_setStore hs hf rfl (fun j k hjk => ?_) fun q hq => ?_
    · rw [keysAt_persist]
      split_ifs
      · exact List.mem_append_left _ hjk
      · exact hjk
    · rw [keysAt_persist, if_pos ⟨rfl, hi⟩]
      rcases List.mem_cons.mp hq with rfl | hq
      · exact Or.inr (List.mem_append_right _ List.mem_cons_self)
      · exact Or.inl hq
  | @skip p todo hf =>
    refine h.of_setStore hs hf rfl (fun _ _ => id) fun q hq => ?_
    rcases List.mem_cons.mp hq with rfl | hq
    · refine Or.inr (hk q.1 ?_)
      rw [Writeback.due_of_future hf]
      rfl
    · exact Or.inl hq
  | stored hf =>
    refine h.of_setStore hs hf rfl (fun j k hjk => ?_) nofun
    exact (keysAt_popTask s j i).symm ▸ hjk
  | storeFail ht => exact (hk ht).elim

theorem Mirror.step {l : Label} (h : s.Mirror log) (hk : s.Keeps l)
    (hs : s.step blake3 l = some s') : s'.Mirror (s.nextLog s' log l) := by
  have hsame : l ≠ .writeback → s'.l2s = s.l2s → s'.writeback = s.writeback →
      s'.Mirror (s.nextLog s' log l) := by
    intro hl hl2s hw
    refine h.of_due hs hl (by rw [hw]) fun j _ k hjk => ?_
    rwa [hw, hl2s]
  cases l with
  | recv t m =>
    obtain ⟨-, rfl⟩ := step_recv hs
    exact hsame nofun rfl rfl
  | handler t =>
    obtain ⟨m, hd, srv', hd', -, -, rfl⟩ := step_handler hs
    exact hsame nofun rfl rfl
  | worker =>
    obtain ⟨srv', l2s', w', hdoes, rfl⟩ := step_worker hs
    refine h.of_due hs nofun rfl fun j _ k hjk => ?_
    rwa [keysAt, hdoes.ghosts_eq.2.2]
  | writeback => exact h.writeback hs
  | evictor =>
    obtain rfl := step_evictor hs
    exact hsame nofun rfl rfl
  | l2 i act => exact h.l2 hk hs

theorem mirror_new (chunkSize capacity : ℕ) (pool : ℕ → UInt8) (adapters : ℕ) :
    (logNew chunkSize capacity pool adapters).1.Mirror
      (logNew chunkSize capacity pool adapters).2 := by
  refine ⟨fun pending hp => ?_, fun i _ q hq => by cases hq⟩
  have hp : (if decide (adapters ≠ 0) = true then some [] else none) = some pending := hp
  split_ifs at hp
  cases hp
  rfl

/-- What the log's run says of the system alone. -/
theorem run_of_logStep (ok : System → Label → Prop) {p q : System × Log} {ls : List Label}
    (h : Run (logStep blake3) (fun p l => ok p.1 l) p ls q) :
    Run (System.step blake3) ok p.1 ls q.1 := by
  induction h with
  | refl => exact .refl
  | snoc _ hok hs ih =>
    obtain ⟨s', hs', rfl⟩ := Option.map_eq_some_iff.mp hs
    exact .snoc ih hok hs'

/-- The mirror after a run, and the adapters it started with. -/
theorem mirror_of_run {chunkSize capacity adapters : ℕ} {pool : ℕ → UInt8} {ls : List Label}
    {p : System × Log} (h : Run (logStep blake3) (fun p l => p.1.Keeps l)
      (logNew chunkSize capacity pool adapters) ls p) :
    p.1.Mirror p.2 ∧ p.1.l2s.length = adapters := by
  refine h.invariant (fun p => p.1.Mirror p.2 ∧ p.1.l2s.length = adapters)
    ⟨mirror_new _ _ _ _, List.length_replicate⟩ ?_
  rintro ⟨s, log⟩ l p ⟨hm, hlen⟩ hk hs
  obtain ⟨s', hs', rfl⟩ := Option.map_eq_some_iff.mp hs
  exact ⟨hm.step hk hs', (length_l2s hs').trans hlen⟩

/-- When the loop is idle, what it reserved and found readable is in every adapter. -/
theorem Mirror.keysAt_of_idle (h : s.Mirror log) (hdue : ∀ i, s.writeback.due i = [])
    {q : List ChunkKey × List ChunkKey} (hq : q ∈ log.reserved) {k : ChunkKey} (hk : k ∈ q.1)
    (hread : k ∉ q.2) {i : ℕ} (hi : i < s.l2s.length) : k ∈ keysAt s.l2s i := by
  rcases h.stored i hi q hq k hk with hout | hdue' | hkeys
  · exact (hread hout).elim
  · rw [hdue] at hdue'
    cases hdue'
  · exact hkeys

/-- Write-back mirrors what was announced, when no adapter's `store` raises or leaves out a chunk
it does not have : whenever the queue is empty and the loop idle, every announced batch was
reserved, and every key of it is in every adapter, unless it was not readable when the loop reserved
the batch. And always, what an adapter has stored for a key is a blob that a STORE carried for
it. -/
theorem writeback_mirrors {chunkSize capacity adapters : ℕ} {pool : ℕ → UInt8} {ls : List Label}
    (h : Run (logStep blake3) (fun p l => p.1.Faithful blake3 l ∧ p.1.Keeps l)
      (logNew chunkSize capacity pool adapters) ls (s, log)) :
    (s.writeback = .idle → s.pending = some [] →
      log.announced = log.reserved.map Prod.fst ∧
      ∀ q ∈ log.reserved, ∀ k ∈ q.1, k ∉ q.2 → ∀ i < adapters, k ∈ keysAt s.l2s i) ∧
    ∀ i, ∀ p ∈ storedAt s.l2s i, p ∈ s.server.carried := by
  obtain ⟨hm, hlen⟩ := mirror_of_run (h.mono fun _ _ hok => hok.2)
  have hfaithful : s.FaithfullyReachable blake3 :=
    ⟨_, _, _, _, _, run_of_logStep (fun s l => s.Faithful blake3 l)
      (h.mono fun _ _ hok => hok.1)⟩
  refine ⟨fun hidle hempty => ⟨?_, fun q hq k hk hread i hi => ?_⟩, hfaithful.carried.2.stored⟩
  · have hfifo := hm.fifo [] hempty
    simpa [hidle, Writeback.taken] using hfifo
  · have hdue : ∀ i, s.writeback.due i = [] := fun i => by rw [hidle]; rfl
    exact hm.keysAt_of_idle hdue hq hk hread (hlen.symm ▸ hi)

/-- Run a server as `sample` does, beside its log. -/
def logSample (capacity : ℕ) (ls : List Label) : Option (System × Log) :=
  replay (logStep sampleDigest)
    (fun p l => decide (p.1.Faithful sampleDigest l ∧ p.1.Keeps l))
    (logNew 1 capacity (fun _ => 0) 1) ls

theorem run_of_logSample {capacity : ℕ} {ls : List Label} {p : System × Log}
    (h : logSample capacity ls = some p) : Run (logStep sampleDigest)
      (fun p l => p.1.Faithful sampleDigest l ∧ p.1.Keeps l)
      (logNew 1 capacity (fun _ => 0) 1) ls p :=
  (run_of_replay h).mono fun _ _ hok => of_decide_eq_true hok

/-- The chunk of a STORE is written back. -/
theorem writeback_mirrors_sample : ∃ s log, logSample 2 sampleStore = some (s, log) ∧
    log.announced = [[sampleKey 1]] ∧ log.reserved = [([sampleKey 1], [])] ∧
    sampleKey 1 ∈ keysAt s.l2s 0 := by
  have hrun : (logSample 2 sampleStore).map (fun p =>
      decide (p.1.writeback = .idle ∧ p.1.pending = some [] ∧ p.2.announced = [[sampleKey 1]] ∧
        p.2.reserved = [([sampleKey 1], [])])) = some true := by decide
  obtain ⟨⟨s, log⟩, hs, he⟩ := Option.map_eq_some_iff.mp hrun
  obtain ⟨hidle, hempty, hann, hres⟩ := of_decide_eq_true he
  obtain ⟨-, hkeys⟩ := (writeback_mirrors (run_of_logSample hs)).1 hidle hempty
  have hq : ([sampleKey 1], []) ∈ log.reserved := hres ▸ List.mem_cons_self
  exact ⟨s, log, hs, hann, hres,
    hkeys _ hq (sampleKey 1) List.mem_cons_self List.not_mem_nil 0 Nat.one_pos⟩

/-- Rank 0 of `m` stores the prompt `[1]`, and the loop has just taken its batch. -/
def sampleTaken : List Label :=
  [.recv 0 (.registerKvCache ⟨7, "m", 0, 1, 1, 2⟩), .handler 0,
    .recv 1 (.store ⟨"a", 7, sampleOp 1, [[5, 6]]⟩), .handler 1, .handler 1, .handler 1, .handler 1,
    .writeback]

/-- The chunk is readable when the loop takes its batch, and evicted before the loop reserves it :
the loop is idle again and no adapter has the key. -/
theorem evicted_before_reserve : ∃ s₁ log₁ s log, logSample 2 sampleTaken = some (s₁, log₁) ∧
    s₁.writeback = .reserve [sampleKey 1] ∧ s₁.server.l1.Readable (sampleKey 1) ∧
    logSample 2 (sampleTaken ++ [.evictor, .evictor, .evictor, .writeback]) = some (s, log) ∧
    s.writeback = .idle ∧ s.pending = some [] ∧ log.announced = [[sampleKey 1]] ∧
    keysAt s.l2s 0 = [] := by
  have htaken : (logSample 2 sampleTaken).map (fun p =>
      (decide (p.1.writeback = .reserve [sampleKey 1]),
        (p.1.server.l1.entries.get? (sampleKey 1)).map Entry.writeLocked)) =
      some (true, some false) := by decide
  have hrun : (logSample 2 (sampleTaken ++ [.evictor, .evictor, .evictor, .writeback])).map
      (fun p => decide (p.1.writeback = .idle ∧ p.1.pending = some [] ∧
        p.2.announced = [[sampleKey 1]] ∧ keysAt p.1.l2s 0 = [])) = some true := by decide
  obtain ⟨⟨s₁, log₁⟩, hs₁, he₁⟩ := Option.map_eq_some_iff.mp htaken
  obtain ⟨⟨s, log⟩, hs, he⟩ := Option.map_eq_some_iff.mp hrun
  obtain ⟨hw, hread⟩ := Prod.mk.inj he₁
  exact ⟨s₁, log₁, s, log, hs₁, of_decide_eq_true hw, Option.map_eq_some_iff.mp hread, hs,
    of_decide_eq_true he⟩

end System

end MiniLlmcache
