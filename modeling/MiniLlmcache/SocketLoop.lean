import Mathlib.Logic.Function.Basic
import MiniLlmcache.Runs

/-!
# The I/O thread of a socket

`SocketLoop` of `mq.py` : any number of threads that `send` and `send_now`, and the thread that
runs the loop. `send` puts its frames into the queue and then writes one byte into a pipe; the loop
polls the pipe and the socket, reads up to 4096 bytes at a time, and sends until it sees the queue
empty. Bytes and messages are not paired, and messages come in at any point of this.

`Inv.woken` is what carries the wakeups : while there is a message in the queue there is a byte in
the pipe, or a thread about to write one, or the loop is still sending. So it never sleeps on a
message (`no_message_stranded`).
-/

namespace MiniLlmcache

namespace MQ

variable {T M : Type}

/-- Where a thread stands that uses the socket. -/
inductive Sender (M : Type)
  | idle
  /-- Before `os.write(self.wake_write, b"x")`, in `send` or in `close`. -/
  | waking
  /-- `send_now`, with the lock. -/
  | direct (frames : M)
deriving DecidableEq

/-- Where the I/O thread stands; `sock` is `self.sock in ready`. -/
inductive IOThread (M : Type)
  /-- `while not self.stopped`. -/
  | test
  | poll
  | polled (wake sock : Bool)
  /-- `while not self.send_queue.empty()`. -/
  | drain (sock : Bool)
  /-- Before it has the lock. -/
  | lock (sock : Bool)
  | get (sock : Bool)
  | send (sock : Bool) (frames : M)
  /-- `if self.sock in ready`. -/
  | recv (sock : Bool)
  | onRecv (frames : M)
  | ended
deriving DecidableEq

namespace IOThread

/-- It comes to the emptiness test of the queue again before it polls. -/
def draining : IOThread M → Bool
  | drain _ | lock _ | get _ | send _ _ => true
  | _ => false

/-- The frames taken from the queue and not yet sent. -/
def inHand : IOThread M → List M
  | send _ frames => [frames]
  | _ => []

end IOThread

/-- A socket with its loop. `wire` are the messages that left the socket, those of the queue on
the left and those of `send_now` on the right; `put` is a log of what was put into the queue. -/
structure SocketLoop (T M : Type) where
  senders : T → Sender M
  sendQueue : List M
  /-- The bytes in the pipe. -/
  wake : ℕ
  sendLock : Bool
  thread : IOThread M
  incoming : List M
  stopped : Bool
  wire : List (M ⊕ M)
  put : List M

/-- What happens next at a socket. -/
inductive SocketLabel (T M : Type)
  /-- `self.send_queue.put(frames)`. -/
  | put (t : T) (frames : M)
  /-- `os.write(self.wake_write, b"x")`. -/
  | write (t : T)
  /-- `send_now` gets the lock. -/
  | acquire (t : T) (frames : M)
  /-- Its `send_multipart`, and the lock is free. -/
  | sendNow (t : T)
  /-- `close`, up to its write. -/
  | close (t : T)
  | arrive (frames : M)
  /-- `poll` returns. -/
  | poll (wake sock : Bool)
  /-- Any other step of the I/O thread. -/
  | run
  /-- `on_recv` raises. -/
  | raise

namespace SocketLoop

/-- A loop that has been started. -/
def new : SocketLoop T M := ⟨fun _ => .idle, [], 0, false, .test, [], false, [], []⟩

/-- The messages of the queue that have left. -/
def sent (s : SocketLoop T M) : List M := s.wire.filterMap Sum.getLeft?

/-- A step of the I/O thread other than `poll`; nothing where it blocks. -/
def run (s : SocketLoop T M) : Option (SocketLoop T M) :=
  match s.thread with
  | .test => some { s with thread := if s.stopped then .ended else .poll }
  | .poll => none
  | .polled true sock =>
    -- `os.read(self.wake_read, 4096)`
    if s.wake = 0 then none
    else some { s with wake := s.wake - min s.wake 4096, thread := .drain sock }
  | .polled false sock => some { s with thread := .recv sock }
  | .drain sock => some { s with thread := if s.sendQueue = [] then .recv sock else .lock sock }
  | .lock sock =>
    if s.sendLock then none else some { s with sendLock := true, thread := .get sock }
  | .get sock =>
    match s.sendQueue with
    | [] => none
    | frames :: queue => some { s with sendQueue := queue, thread := .send sock frames }
  | .send sock frames => some { s with
      sendLock := false
      thread := .drain sock
      wire := s.wire ++ [.inl frames] }
  | .recv true =>
    match s.incoming with
    | [] => none
    | frames :: incoming => some { s with incoming, thread := .onRecv frames }
  | .recv false => some { s with thread := .test }
  | .onRecv _ => some { s with thread := .test }
  | .ended => none

section

variable [DecidableEq T]

def setSender (s : SocketLoop T M) (t : T) (x : Sender M) : SocketLoop T M :=
  { s with senders := Function.update s.senders t x }

/-- `capacity` is the size of the pipe : a write blocks when it is full. -/
def step (capacity : ℕ) (s : SocketLoop T M) : SocketLabel T M → Option (SocketLoop T M)
  | .put t frames =>
    match s.senders t with
    | .idle => some { s.setSender t .waking with
        sendQueue := s.sendQueue ++ [frames]
        put := s.put ++ [frames] }
    | _ => none
  | .write t =>
    match s.senders t with
    | .waking =>
      if s.wake < capacity then some { s.setSender t .idle with wake := s.wake + 1 } else none
    | _ => none
  | .acquire t frames =>
    match s.senders t with
    | .idle =>
      if s.sendLock then none
      else some { s.setSender t (.direct frames) with sendLock := true }
    | _ => none
  | .sendNow t =>
    match s.senders t with
    | .direct frames => some { s.setSender t .idle with
        sendLock := false
        wire := s.wire ++ [.inr frames] }
    | _ => none
  | .close t =>
    match s.senders t with
    | .idle => some { s.setSender t .waking with stopped := true }
    | _ => none
  | .arrive frames => some { s with incoming := s.incoming ++ [frames] }
  | .poll wake sock =>
    match s.thread with
    | .poll =>
      if (wake = true → 0 < s.wake) ∧ (sock = true → s.incoming ≠ []) ∧ (wake || sock) = true then
        some { s with thread := .polled wake sock }
      else none
    | _ => none
  | .run => s.run
  | .raise =>
    match s.thread with
    | .onRecv _ => some { s with thread := .ended }
    | _ => none

end

/-! ## The invariant -/

structure Inv (s : SocketLoop T M) : Prop where
  /-- A message in the queue will be seen. -/
  woken : s.sendQueue ≠ [] →
    0 < s.wake ∨ (∃ t, s.senders t = .waking) ∨ s.thread.draining = true
  /-- What was put has left, or is in hand, or in the queue, in this order. -/
  order : s.sent ++ (s.thread.inHand ++ s.sendQueue) = s.put

theorem inv_new : (new : SocketLoop T M).Inv := ⟨fun h => absurd rfl h, rfl⟩

variable {s s' : SocketLoop T M}

/-- The loop goes on without taking a message, and stops draining only at an empty queue. -/
theorem Inv.goto (h : s.Inv) {old thread : IOThread M} {sendLock : Bool} {incoming : List M}
    (ht : s.thread = old) (hhand : thread.inHand = old.inHand)
    (hdrain : old.draining = true → thread.draining = true ∨ s.sendQueue = []) :
    ({ s with thread, sendLock, incoming } : SocketLoop T M).Inv := by
  obtain ⟨hwoken, horder⟩ := h
  rw [ht] at hwoken horder
  refine ⟨fun hne => ?_, ?_⟩
  · rcases hwoken hne with hwake | hwaking | hd
    · exact Or.inl hwake
    · exact Or.inr (Or.inl hwaking)
    · exact Or.inr (Or.inr ((hdrain hd).resolve_right hne))
  · rw [← horder, ← hhand]
    rfl

theorem Inv.run (h : s.Inv) (hs : s.run = some s') : s'.Inv := by
  have horder := h.order
  cases ht : s.thread with
  | test =>
    simp only [SocketLoop.run, ht, Option.some.injEq] at hs
    subst hs
    split_ifs <;> exact h.goto ht rfl nofun
  | poll => simp only [SocketLoop.run, ht, reduceCtorEq] at hs
  | polled wake sock =>
    cases wake with
    | true =>
      -- the bytes read are gone, and the queue is drained after them
      simp only [SocketLoop.run, ht] at hs
      split_ifs at hs
      cases hs
      refine ⟨fun _ => Or.inr (Or.inr rfl), ?_⟩
      rw [← horder, ht]
      rfl
    | false =>
      simp only [SocketLoop.run, ht, Option.some.injEq] at hs
      exact hs ▸ h.goto ht rfl nofun
  | drain sock =>
    simp only [SocketLoop.run, ht, Option.some.injEq] at hs
    subst hs
    split_ifs with hnil
    · exact h.goto ht rfl fun _ => Or.inr hnil
    · exact h.goto ht rfl fun _ => Or.inl rfl
  | lock sock =>
    simp only [SocketLoop.run, ht] at hs
    split_ifs at hs
    cases hs
    exact h.goto ht rfl fun _ => Or.inl rfl
  | get sock =>
    simp only [SocketLoop.run, ht] at hs
    split at hs
    · cases hs
    · rename_i frames queue hqueue
      cases hs
      refine ⟨fun _ => Or.inr (Or.inr rfl), ?_⟩
      rw [← horder, ht, hqueue]
      rfl
  | send sock frames =>
    simp only [SocketLoop.run, ht, Option.some.injEq] at hs
    subst hs
    refine ⟨fun _ => Or.inr (Or.inr rfl), ?_⟩
    rw [← horder, ht]
    simp [sent, IOThread.inHand]
  | recv sock =>
    cases sock with
    | true =>
      simp only [SocketLoop.run, ht] at hs
      split at hs
      · cases hs
      · cases hs
        exact h.goto ht rfl nofun
    | false =>
      simp only [SocketLoop.run, ht, Option.some.injEq] at hs
      exact hs ▸ h.goto ht rfl nofun
  | onRecv frames =>
    simp only [SocketLoop.run, ht, Option.some.injEq] at hs
    exact hs ▸ h.goto ht rfl nofun
  | ended => simp only [SocketLoop.run, ht, reduceCtorEq] at hs

variable [DecidableEq T] {capacity : ℕ}

/-- A step of thread `t`, which was not about to write, without the queue. -/
theorem Inv.sender (h : s.Inv) {t : T} {x : Sender M} (ht : s.senders t ≠ .waking)
    {sendLock stopped : Bool} {wire : List (M ⊕ M)}
    (hsent : wire.filterMap Sum.getLeft? = s.sent) :
    ({ s.setSender t x with sendLock, stopped, wire } : SocketLoop T M).Inv := by
  refine ⟨fun hne => ?_, ?_⟩
  · rcases h.woken hne with hwake | ⟨t', ht'⟩ | hd
    · exact Or.inl hwake
    · have hne' : t' ≠ t := fun heq => ht (heq ▸ ht')
      exact Or.inr (Or.inl ⟨t', (Function.update_of_ne hne' _ _).trans ht'⟩)
    · exact Or.inr (Or.inr hd)
  · have horder := h.order
    rw [← hsent] at horder
    exact horder

theorem Inv.step (h : s.Inv) {l : SocketLabel T M} (hs : s.step capacity l = some s') :
    s'.Inv := by
  cases l with
  | put t frames =>
    simp only [SocketLoop.step] at hs
    split at hs
    · cases hs
      refine ⟨fun _ => Or.inr (Or.inl ⟨t, Function.update_self _ _ _⟩), ?_⟩
      rw [← h.order, List.append_assoc, List.append_assoc]
      rfl
    · cases hs
  | write t =>
    simp only [SocketLoop.step] at hs
    split at hs
    · split_ifs at hs
      cases hs
      exact ⟨fun _ => Or.inl (Nat.succ_pos _), h.order⟩
    · cases hs
  | acquire t frames =>
    simp only [SocketLoop.step] at hs
    split at hs
    · rename_i ht
      split_ifs at hs
      cases hs
      exact h.sender (by rw [ht]; nofun) rfl
    · cases hs
  | sendNow t =>
    simp only [SocketLoop.step] at hs
    split at hs
    · rename_i frames ht
      cases hs
      exact h.sender (by rw [ht]; nofun) (by simp [sent])
    · cases hs
  | close t =>
    simp only [SocketLoop.step] at hs
    split at hs
    · rename_i ht
      cases hs
      exact h.sender (by rw [ht]; nofun) rfl
    · cases hs
  | arrive frames =>
    cases hs
    exact h.goto rfl rfl Or.inl
  | poll wake sock =>
    simp only [SocketLoop.step] at hs
    split at hs
    · rename_i ht
      split_ifs at hs
      cases hs
      exact h.goto ht rfl nofun
    · cases hs
  | run => exact h.run hs
  | raise =>
    simp only [SocketLoop.step] at hs
    split at hs
    · rename_i ht
      cases hs
      exact h.goto ht rfl nofun
    · cases hs

/-- A state that some interleaving of threads, loop and arriving messages reaches. -/
def Reachable (capacity : ℕ) (s : SocketLoop T M) : Prop :=
  ∃ labels, Run (step capacity) (fun _ _ => True) new labels s

theorem Reachable.inv (h : s.Reachable capacity) : s.Inv := by
  obtain ⟨labels, hrun⟩ := h
  exact hrun.invariant Inv inv_new fun _ _ _ hi _ hs => hi.step hs

/-- No outgoing message is stranded : when the loop is blocked in `poll` with nothing in the pipe,
and no thread is between its enqueue and its write, the queue is empty and all messages have left.
The messages leave the socket in the order they were enqueued, each once. -/
theorem no_message_stranded (h : s.Reachable capacity) :
    (s.thread = .poll → s.wake = 0 → (∀ t, s.senders t ≠ .waking) →
      s.sendQueue = [] ∧ s.sent = s.put) ∧
    s.sent ++ (s.thread.inHand ++ s.sendQueue) = s.put := by
  have hinv := h.inv
  refine ⟨fun hpoll hwake hwaking => ?_, hinv.order⟩
  have hnil : s.sendQueue = [] := by
    by_contra hne
    rcases hinv.woken hne with hpos | ⟨t, ht⟩ | hd
    · omega
    · exact hwaking t ht
    · rw [hpoll] at hd
      cases hd
  have horder := hinv.order
  rw [hpoll, hnil] at horder
  exact ⟨hnil, by simpa [IOThread.inHand] using horder⟩

/-- Two threads send; the second byte is written while the loop sends both messages, so it wakes up
once more for nothing. -/
theorem no_message_stranded_sample : ∃ s : SocketLoop Bool ℕ,
    s.sendQueue = [] ∧ s.sent = s.put ∧ s.put = [1, 2] := by
  have hrun : (replay (step 65536) (fun _ _ => true) (new : SocketLoop Bool ℕ)
      ([.put true 1, .put false 2, .write true, .run, .poll true false, .run, .run, .run, .run,
        .write false] ++ List.replicate 8 .run ++ [.poll true false] ++
        List.replicate 4 .run)).map (fun s => (decide (s.thread = .poll ∧ s.wake = 0 ∧
          s.senders true = .idle ∧ s.senders false = .idle ∧ s.put = [1, 2]))) = some true := by
    decide
  obtain ⟨s, hs, he⟩ := Option.map_eq_some_iff.mp hrun
  obtain ⟨hpoll, hwake, htrue, hfalse, hput⟩ := of_decide_eq_true he
  have hreach : s.Reachable 65536 := ⟨_, (run_of_replay hs).mono fun _ _ _ => trivial⟩
  obtain ⟨hnil, hsent⟩ := (no_message_stranded hreach).1 hpoll hwake fun t => by
    cases t
    · rw [hfalse]
      nofun
    · rw [htrue]
      nofun
  exact ⟨s, hnil, hsent, hput⟩

end SocketLoop

end MQ

end MiniLlmcache
