import Mathlib.Data.Set.Insert
import Mathlib.Logic.Function.Basic
import Mathlib.Logic.Relation
import MiniLlmcache.Runs

/-!
# Programs over streams and events

A host thread issues commands to streams. Each stream is a queue, and runs its commands in order at
any time. `record` puts a mark into a stream; `wait` makes a stream wait for the mark that was the
last one of an event when the wait was issued, and `syncEvent` makes the host wait for it. For an
event that was never recorded nobody waits. `elapsed` raises when one of its events is not done.

An operation reads one cell of the memory and writes another (`Move`). A program is safe when each
operation is ordered after every earlier one on the same cells. `Know` computes this order from
the program alone : what the host, a stream, or whoever waits for an event can rely on. Then every
schedule leaves the memory that the operations leave in program order (`Inv.step`), and no schedule
gets stuck (`exists_run`).
-/

namespace Streams

variable {Cell Str Ev : Type*} {Val : Cell → Type*}

/-! ## Operations -/

/-- Write a cell from another one and from what it held. -/
structure Move (Val : Cell → Type*) where
  src : Cell
  dst : Cell
  f : Val src → Val dst → Val dst

namespace Move

def Touches (op : Move Val) (c : Cell) : Prop := c = op.src ∨ c = op.dst

def run [DecidableEq Cell] (op : Move Val) (m : ∀ c, Val c) : ∀ c, Val c :=
  Function.update m op.dst (op.f (m op.src) (m op.dst))

theorem run_dst [DecidableEq Cell] (op : Move Val) (m : ∀ c, Val c) :
    op.run m op.dst = op.f (m op.src) (m op.dst) := Function.update_self _ _ _

theorem run_of_ne [DecidableEq Cell] {op : Move Val} {c : Cell} (h : c ≠ op.dst)
    (m : ∀ c, Val c) : op.run m c = m c := Function.update_of_ne h _ _

/-- Operations on different cells can be swapped. -/
theorem run_comm [DecidableEq Cell] {a b : Move Val} (h : ∀ c, a.Touches c → ¬b.Touches c)
    (m : ∀ c, Val c) : a.run (b.run m) = b.run (a.run m) := by
  have hsrc : a.src ≠ b.dst := fun e => h a.src (Or.inl rfl) (Or.inr e)
  have hdst : a.dst ≠ b.dst := fun e => h a.dst (Or.inr rfl) (Or.inr e)
  have hsrc' : b.src ≠ a.dst := fun e => h a.dst (Or.inr rfl) (Or.inl e.symm)
  unfold run
  rw [Function.update_of_ne hsrc, Function.update_of_ne hdst, Function.update_of_ne hsrc',
    Function.update_of_ne hdst.symm, Function.update_comm hdst]

end Move

/-! ## The machine -/

inductive Instr (Str Ev : Type*) (Val : Cell → Type*)
  | launch (s : Str) (op : Move Val)
  | record (e : Ev) (s : Str)
  | wait (s : Str) (e : Ev)
  /-- The host thread itself works on the memory. -/
  | host (op : Move Val)
  | syncEvent (e : Ev)
  | syncStream (s : Str)
  /-- The time between two events. -/
  | elapsed (begin stop : Ev)

/-- A command in a stream; marks are numbered. -/
inductive Cmd (Val : Cell → Type*)
  | run (op : Move Val)
  | record (mark : ℕ)
  | wait (mark : Option ℕ)

/-- What was issued and has not run, oldest first, each command with its stream. -/
abbrev Pending (Str : Type*) (Val : Cell → Type*) := List (Str × Cmd Val)

namespace Cmd

def isRecord (mark : ℕ) : Cmd Val → Bool
  | record mark' => mark' == mark
  | _ => false

end Cmd

/-- Nobody has to wait for `mark` any more. -/
def reached (P : Pending Str Val) : Option ℕ → Bool
  | none => true
  | some mark => P.all fun x => !x.2.isRecord mark

def Cmd.ready (P : Pending Str Val) : Cmd Val → Bool
  | .wait mark => reached P mark
  | _ => true

/-- The first command of a stream, and what is pending without it. -/
def takeNext [DecidableEq Str] (s : Str) : Pending Str Val → Option (Cmd Val × Pending Str Val)
  | [] => none
  | x :: P =>
    if x.1 = s then some (x.2, P) else (takeNext s P).map fun y => (y.1, x :: y.2)

structure Device (Str Ev : Type*) (Val : Cell → Type*) where
  mem : ∀ c, Val c
  todo : List (Instr Str Ev Val)
  pending : Pending Str Val
  /-- The last mark of each event. -/
  last : Ev → Option ℕ
  marks : ℕ
  raised : Bool

inductive Label (Str : Type*)
  | host
  | stream (s : Str)

namespace Device

variable [DecidableEq Cell] [DecidableEq Str] [DecidableEq Ev]

def start (m : ∀ c, Val c) (prog : List (Instr Str Ev Val)) : Device Str Ev Val where
  mem := m
  todo := prog
  pending := []
  last _ := none
  marks := 0
  raised := false

/-- An event that was recorded and is done. -/
def measurable (d : Device Str Ev Val) (e : Ev) : Bool :=
  (d.last e).isSome && reached d.pending (d.last e)

def issue (d : Device Str Ev Val) (s : Str) (c : Cmd Val) : Device Str Ev Val :=
  { d with pending := d.pending ++ [(s, c)] }

def step (d : Device Str Ev Val) : Label Str → Option (Device Str Ev Val)
  | .host =>
    match d.todo with
    | [] => none
    | .launch s op :: todo => some { d.issue s (.run op) with todo }
    | .record e s :: todo => some { d.issue s (.record d.marks) with
        todo
        last := Function.update d.last e (some d.marks)
        marks := d.marks + 1 }
    | .wait s e :: todo => some { d.issue s (.wait (d.last e)) with todo }
    | .host op :: todo => some { d with todo, mem := op.run d.mem }
    | .syncEvent e :: todo => if reached d.pending (d.last e) then some { d with todo } else none
    | .syncStream s :: todo =>
      if d.pending.all fun x => x.1 ≠ s then some { d with todo } else none
    | .elapsed begin stop :: todo =>
      if d.measurable begin && d.measurable stop then some { d with todo }
      else some { d with todo := [], raised := true }
  | .stream s =>
    match takeNext s d.pending with
    | none => none
    | some (c, P) =>
      if c.ready d.pending then
        match c with
        | .run op => some { d with pending := P, mem := op.run d.mem }
        | _ => some { d with pending := P }
      else none

end Device

/-! ## Pending commands -/

/-- A stream runs its first command. -/
inductive Drop : Pending Str Val → Pending Str Val → Prop
  | mk {s : Str} {c : Cmd Val} {l r : Pending Str Val} (hfirst : ∀ x ∈ l, x.1 ≠ s)
      (hready : c.ready (l ++ (s, c) :: r) = true) : Drop (l ++ (s, c) :: r) (l ++ r)

abbrev Drains : Pending Str Val → Pending Str Val → Prop := Relation.ReflTransGen Drop

/-- The command puts the mark. -/
def Puts (mark : Option ℕ) (x : Str × Cmd Val) : Prop := ∃ n, mark = some n ∧ x.2.isRecord n = true

/-- When none of `φ` is left, none of `ψ` is. -/
def Until (P : Pending Str Val) (φ ψ : Str × Cmd Val → Prop) : Prop :=
  ∀ Q, Drains P Q → (∀ x ∈ Q, ¬φ x) → ∀ x ∈ Q, ¬ψ x

theorem reached_iff {P : Pending Str Val} {mark : Option ℕ} :
    reached P mark = true ↔ ∀ x ∈ P, ¬Puts mark x := by
  rcases mark with _ | n
  · simp [reached, Puts]
  · simp [reached, Puts]

theorem takeNext_eq_some [DecidableEq Str] {s : Str} {c : Cmd Val} :
    ∀ {P Q : Pending Str Val}, takeNext s P = some (c, Q) →
      ∃ l r, P = l ++ (s, c) :: r ∧ Q = l ++ r ∧ ∀ x ∈ l, x.1 ≠ s
  | [], _, h => by cases h
  | x :: P, Q, h => by
    rw [takeNext] at h
    split_ifs at h with hx
    · cases h
      exact ⟨[], _, by rw [← hx]; rfl, rfl, nofun⟩
    · obtain ⟨⟨c', Q'⟩, hnext, heq⟩ := Option.map_eq_some_iff.mp h
      cases heq
      obtain ⟨l, r, rfl, rfl, hl⟩ := takeNext_eq_some hnext
      refine ⟨x :: l, r, rfl, rfl, fun y hy => ?_⟩
      rcases List.mem_cons.mp hy with rfl | hy
      · exact hx
      · exact hl y hy

theorem Drop.sublist {P Q : Pending Str Val} (h : Drop P Q) : Q.Sublist P := by
  obtain ⟨-, -⟩ := h
  exact List.Sublist.append_left (List.sublist_cons_self _ _) _

theorem Drains.subset {P Q : Pending Str Val} (h : Drains P Q) : Q ⊆ P := by
  induction h with
  | refl => exact fun _ hx => hx
  | tail _ hdrop ih => exact fun _ hx => ih (hdrop.sublist.subset hx)

theorem ready_of_subset {P Q : Pending Str Val} {c : Cmd Val} (hsub : Q ⊆ P)
    (h : c.ready P = true) : c.ready Q = true := by
  cases c with
  | wait mark => exact reached_iff.mpr fun x hx => reached_iff.mp h x (hsub hx)
  | _ => rfl

/-- A command issued behind others is still there, or ran when its stream had come to it. -/
theorem drains_append {P Q : Pending Str Val} {x : Str × Cmd Val} (h : Drains (P ++ [x]) Q) :
    (∃ P', Drains P P' ∧ Q = P' ++ [x]) ∨
      ∃ P', Drains P P' ∧ (∀ y ∈ P', y.1 ≠ x.1) ∧ x.2.ready P' = true ∧ Drains P' Q := by
  induction h with
  | refl => exact Or.inl ⟨P, .refl, rfl⟩
  | @tail Q Q' _ hdrop ih =>
    rcases ih with ⟨P', hP', rfl⟩ | ⟨P', hP', hfirst, hready, hQ⟩
    · generalize hR : P' ++ [x] = R at hdrop
      obtain @⟨s, c, l, r, hfirst, hready⟩ := hdrop
      rcases List.eq_nil_or_concat r with rfl | ⟨r, y, rfl⟩
      · obtain ⟨rfl, hx⟩ := List.append_inj' hR rfl
        cases hx
        exact Or.inr ⟨P', hP', hfirst, ready_of_subset (List.subset_append_left _ _) hready,
          by rw [List.append_nil]⟩
      · rw [List.concat_eq_append, ← List.cons_append, ← List.append_assoc] at hR hready
        obtain ⟨rfl, hx⟩ := List.append_inj' hR rfl
        cases hx
        refine Or.inl ⟨l ++ r, hP'.tail (.mk hfirst ?_), by rw [List.append_assoc]; simp⟩
        exact ready_of_subset (List.subset_append_left _ _) hready
    · exact Or.inr ⟨P', hP', hfirst, hready, hQ.tail hdrop⟩

namespace Until

variable {P Q : Pending Str Val} {φ ψ : Str × Cmd Val → Prop} {x : Str × Cmd Val}

theorem of_forall (h : ∀ x ∈ P, ¬ψ x) : Until P φ ψ :=
  fun _ hQ _ x hx => h x (hQ.subset hx)

theorem drop (h : Until P φ ψ) (hdrop : Drop P Q) : Until Q φ ψ :=
  fun R hR => h R (hR.head hdrop)

/-- A command is issued that is waited for, or does not matter. -/
theorem append (h : Until P φ ψ) (hx : φ x ∨ ¬ψ x) : Until (P ++ [x]) φ ψ := by
  intro Q hQ hφ
  rcases drains_append hQ with ⟨P', hP', rfl⟩ | ⟨P', hP', -, -, hP'Q⟩
  · have hnot : ¬ψ x := hx.resolve_left (hφ x (by simp))
    intro y hy
    rcases List.mem_append.mp hy with hy | hy
    · exact h P' hP' (fun z hz => hφ z (List.mem_append_left _ hz)) y hy
    · rw [List.mem_singleton.mp hy]
      exact hnot
  · exact h Q (hP'.trans hP'Q) hφ

/-- Behind a mark of the stream. -/
theorem record {s : Str} {n : ℕ} (h : Until P (fun y => y.1 = s) ψ) :
    Until (P ++ [(s, .record n)]) (Puts (some n)) ψ := by
  intro Q hQ hmark
  rcases drains_append hQ with ⟨P', -, rfl⟩ | ⟨P', hP', hfirst, -, hP'Q⟩
  · exact (hmark (s, .record n) (by simp) ⟨n, rfl, by simp [Cmd.isRecord]⟩).elim
  · exact fun y hy => h P' hP' hfirst y (hP'Q.subset hy)

/-- Behind a stream's wait. -/
theorem wait {s : Str} {mark : Option ℕ} (h : Until P (Puts mark) ψ) :
    Until (P ++ [(s, .wait mark)]) (fun y => y.1 = s) ψ := by
  intro Q hQ hs
  rcases drains_append hQ with ⟨P', -, rfl⟩ | ⟨P', hP', -, hready, hP'Q⟩
  · exact (hs (s, .wait mark) (by simp) rfl).elim
  · exact fun y hy => h P' hP' (reached_iff.mp hready) y (hP'Q.subset hy)

end Until

/-! ## What is pending is in order -/

/-- The command works on the cell. -/
def On (c : Cell) (x : Str × Cmd Val) : Prop := ∃ op, x.2 = .run op ∧ op.Touches c

/-- An operation is ordered after the earlier ones on its cells, and a mark is put before it is
waited for. -/
structure Ordered (P : Pending Str Val) : Prop where
  guarded : ∀ l s op r, P = l ++ (s, .run op) :: r → ∀ c, op.Touches c →
    Until l (fun x => x.1 = s) (On c)
  put : ∀ l s n r, P = l ++ (s, .wait (some n)) :: r → ∀ x ∈ r, ¬Puts (some n) x

namespace Ordered

variable {P Q : Pending Str Val}

theorem nil : Ordered ([] : Pending Str Val) where
  guarded _ _ _ _ h := by simp at h
  put _ _ _ _ h := by simp at h

theorem drop (h : Ordered P) (hdrop : Drop P Q) : Ordered Q := by
  obtain @⟨s, c, l, r, hfirst, hready⟩ := hdrop
  constructor
  · intro l' s' op r' heq cell hcell
    rcases List.append_eq_append_iff.mp heq with ⟨m, rfl, rfl⟩ | ⟨m, rfl, hr⟩
    · -- the command that ran was issued before this one
      have hguard := h.guarded (l ++ (s, c) :: m) s' op r' (by simp) cell hcell
      refine hguard.drop (.mk hfirst (ready_of_subset ?_ hready))
      exact (List.Sublist.append_left ((List.sublist_append_left m _).cons_cons _) l).subset
    · rcases m with _ | ⟨y, m⟩
      · rw [List.nil_append] at hr
        subst hr
        have hguard := h.guarded (l' ++ [(s, c)]) s' op r' (by simp) cell hcell
        refine (hguard.drop (Q := l') ?_)
        rw [List.append_nil] at hfirst
        have hdrop := Drop.mk (r := []) hfirst (ready_of_subset ?_ hready)
        · simpa using hdrop
        · simp
      · cases hr
        exact h.guarded l' s' op (m ++ (s, c) :: r) (by simp) cell hcell
  · intro l' s' n r' heq x hx
    rcases List.append_eq_append_iff.mp heq with ⟨m, rfl, rfl⟩ | ⟨m, rfl, hr⟩
    · exact h.put (l ++ (s, c) :: m) s' n r' (by simp) x hx
    · rcases m with _ | ⟨y, m⟩
      · rw [List.nil_append] at hr
        subst hr
        exact h.put (l' ++ [(s, c)]) s' n r' (by simp) x hx
      · cases hr
        refine h.put l' s' n (m ++ (s, c) :: r) (by simp) x ?_
        rcases List.mem_append.mp hx with hx | hx
        · exact List.mem_append_left _ hx
        · exact List.mem_append_right _ (List.mem_cons_of_mem _ hx)

theorem append (h : Ordered P) {x : Str × Cmd Val}
    (hrun : ∀ op, x.2 = .run op → ∀ c, op.Touches c → Until P (fun y => y.1 = x.1) (On c))
    (hfresh : ∀ s n, (s, .wait (some n)) ∈ P → ¬Puts (some n) x) : Ordered (P ++ [x]) := by
  have hsplit : ∀ {l r : Pending Str Val} {y}, P ++ [x] = l ++ y :: r →
      (P = l ∧ x = y ∧ r = []) ∨ ∃ r', P = l ++ y :: r' ∧ r = r' ++ [x] := by
    intro l r y heq
    rcases List.eq_nil_or_concat r with rfl | ⟨r, z, rfl⟩
    · obtain ⟨hl, hx⟩ := List.append_inj' heq rfl
      exact Or.inl ⟨hl, List.head_eq_of_cons_eq hx, rfl⟩
    · rw [List.concat_eq_append, ← List.cons_append, ← List.append_assoc] at heq
      obtain ⟨hl, hx⟩ := List.append_inj' heq rfl
      exact Or.inr ⟨r, hl, by rw [List.concat_eq_append, List.head_eq_of_cons_eq hx]⟩
  constructor
  · intro l s op r heq c hc
    rcases hsplit heq with ⟨rfl, rfl, -⟩ | ⟨r', hP, -⟩
    · exact hrun op rfl c hc
    · exact h.guarded l s op r' hP c hc
  · intro l s n r heq y hy
    rcases hsplit heq with ⟨-, -, rfl⟩ | ⟨r', hP, rfl⟩
    · cases hy
    · rcases List.mem_append.mp hy with hy | hy
      · exact h.put l s n r' hP y hy
      · rw [List.mem_singleton.mp hy]
        exact hfresh s n (hP ▸ by simp)

/-- The oldest command can run. -/
theorem ready_head {x : Str × Cmd Val} (h : Ordered (x :: P)) : x.2.ready (x :: P) = true := by
  obtain ⟨s, c⟩ := x
  rcases c with op | n | _ | n
  · rfl
  · rfl
  · rfl
  · have hput : reached ((s, .wait (some n)) :: P) (some n) = true := by
      refine reached_iff.mpr fun y hy => ?_
      rcases List.mem_cons.mp hy with rfl | hy
      · rintro ⟨_, -, hn⟩
        cases hn
      · exact h.put [] s n P rfl y hy
    exact hput

end Ordered

/-! ## What a program orders -/

/-- `Sum.inl c` : the operations on the cell that were issued so far; `Sum.inr e` : the last mark
of the event. -/
abbrev Fact (Cell Ev : Type*) := Cell ⊕ Ev

/-- The facts the host can rely on, those a command issued to a stream now can rely on, and those
that hold when an event is reached. `recorded` are the events that have a mark. -/
structure Know (Cell Str Ev : Type*) where
  host : Set (Fact Cell Ev)
  stream : Str → Set (Fact Cell Ev)
  event : Ev → Set (Fact Cell Ev)
  recorded : Set Ev

namespace Know

variable [DecidableEq Str] [DecidableEq Ev]

def all : Know Cell Str Ev := ⟨Set.univ, fun _ => ∅, fun _ => ∅, ∅⟩

/-- A command that changes the facts `F` is issued to `s`. -/
def issue (k : Know Cell Str Ev) (s : Str) (F : Set (Fact Cell Ev)) : Know Cell Str Ev where
  host := k.host \ F
  stream s' := if s' = s then k.stream s ∪ k.host else k.stream s' \ F
  event e := k.event e \ F
  recorded := k.recorded

def next (k : Know Cell Str Ev) : Instr Str Ev Val → Know Cell Str Ev
  | .launch s op => k.issue s {x | ∃ c, op.Touches c ∧ x = Sum.inl c}
  | .record e s => { k.issue s {Sum.inr e} with
      stream := fun s' =>
        if s' = s then insert (Sum.inr e) (k.stream s ∪ k.host) else k.stream s' \ {Sum.inr e}
      event := fun e' =>
        if e' = e then insert (Sum.inr e) (k.stream s ∪ k.host) else k.event e' \ {Sum.inr e}
      recorded := insert e k.recorded }
  | .wait s e => { k with
      stream := fun s' => if s' = s then k.stream s ∪ k.host ∪ k.event e else k.stream s' }
  | .syncEvent e => { k with host := k.host ∪ k.event e }
  | .syncStream s => { k with host := k.host ∪ k.stream s }
  | .host _ | .elapsed _ _ => k

def after (k : Know Cell Str Ev) (prog : List (Instr Str Ev Val)) : Know Cell Str Ev :=
  prog.foldl next k

/-- What a command that is issued to `s` now can rely on. -/
def behind (k : Know Cell Str Ev) (s : Str) : Set (Fact Cell Ev) := k.stream s ∪ k.host

/-- The operation comes after all earlier ones on its cells. -/
def Safe (k : Know Cell Str Ev) : Instr Str Ev Val → Prop
  | .launch s op => ∀ c, op.Touches c → Sum.inl c ∈ k.behind s
  | .host op => ∀ c, op.Touches c → Sum.inl c ∈ k.host
  | .elapsed begin stop => begin ∈ k.recorded ∧ stop ∈ k.recorded
  | _ => True

/-- Both events are done. -/
def Timed (k : Know Cell Str Ev) : Instr Str Ev Val → Prop
  | .elapsed begin stop => Sum.inr begin ∈ k.host ∧ Sum.inr stop ∈ k.host
  | _ => True

/-- Every instruction of the program meets `φ` when its turn comes. -/
def Along (φ : Know Cell Str Ev → Instr Str Ev Val → Prop) :
    Know Cell Str Ev → List (Instr Str Ev Val) → Prop
  | _, [] => True
  | k, i :: prog => φ k i ∧ Along φ (k.next i) prog

theorem after_append (k : Know Cell Str Ev) (p q : List (Instr Str Ev Val)) :
    k.after (p ++ q) = (k.after p).after q := List.foldl_append

theorem along_append {φ : Know Cell Str Ev → Instr Str Ev Val → Prop} :
    ∀ {p q : List (Instr Str Ev Val)} {k : Know Cell Str Ev},
      Along φ k (p ++ q) ↔ Along φ k p ∧ Along φ (k.after p) q
  | [], _, _ => ⟨fun h => ⟨trivial, h⟩, fun h => h.2⟩
  | i :: p, q, k => by
    rw [List.cons_append, Along, Along, along_append, and_assoc]
    rfl

theorem along_of_forall {φ : Know Cell Str Ev → Instr Str Ev Val → Prop} :
    ∀ {p : List (Instr Str Ev Val)} {k : Know Cell Str Ev},
      (∀ i ∈ p, ∀ k : Know Cell Str Ev, φ k i) → Along φ k p
  | [], _, _ => trivial
  | i :: _, k, h => ⟨h i List.mem_cons_self k,
      along_of_forall fun j hj => h j (List.mem_cons_of_mem _ hj)⟩

/-! ### What is kept and what is learnt -/

/-- The instruction is one the fact is about. -/
def Changes : Instr Str Ev Val → Fact Cell Ev → Prop
  | .launch _ op, .inl c => op.Touches c
  | .record e _, .inr e' => e = e'
  | _, _ => False

/-- The instruction puts a new mark for the event. -/
def Marks (e : Ev) : Instr Str Ev Val → Prop
  | .record e' _ => e' = e
  | _ => False

variable {k : Know Cell Str Ev} {i : Instr Str Ev Val} {F : Fact Cell Ev}

theorem host_next (hi : ¬Changes i F) (hF : F ∈ k.host) : F ∈ (k.next i).host := by
  cases i with
  | launch s op =>
    refine ⟨hF, ?_⟩
    rintro ⟨c, hc, rfl⟩
    exact hi hc
  | record e s =>
    refine ⟨hF, ?_⟩
    rintro rfl
    exact hi rfl
  | syncEvent | syncStream => exact Or.inl hF
  | _ => exact hF

theorem event_next {e : Ev} (hi : ¬Changes i F) (he : ¬Marks e i) (hF : F ∈ k.event e) :
    F ∈ (k.next i).event e := by
  cases i with
  | launch s op =>
    refine ⟨hF, ?_⟩
    rintro ⟨c, hc, rfl⟩
    exact hi hc
  | record e' s =>
    simp only [next, if_neg (Ne.symm he : e ≠ e')]
    refine ⟨hF, ?_⟩
    rintro rfl
    exact hi rfl
  | _ => exact hF

theorem behind_next {s : Str} (hi : ¬Changes i F) (hF : F ∈ k.behind s) :
    F ∈ (k.next i).behind s := by
  rcases hF with hF | hF
  · refine Or.inl ?_
    cases i with
    | launch s' op =>
      simp only [next, issue]
      split_ifs with hs
      · exact Or.inl (hs ▸ hF)
      · refine ⟨hF, ?_⟩
        rintro ⟨c, hc, rfl⟩
        exact hi hc
    | record e s' =>
      simp only [next]
      split_ifs with hs
      · exact Or.inr (Or.inl (hs ▸ hF))
      · refine ⟨hF, ?_⟩
        rintro rfl
        exact hi rfl
    | wait s' e =>
      simp only [next]
      split_ifs with hs
      · exact Or.inl (Or.inl (hs ▸ hF))
      · exact hF
    | _ => exact hF
  · exact Or.inr (host_next hi hF)

theorem host_after : ∀ {p : List (Instr Str Ev Val)} {k : Know Cell Str Ev},
    (∀ i ∈ p, ¬Changes i F) → F ∈ k.host → F ∈ (k.after p).host
  | [], _, _, hF => hF
  | _ :: p, _, h, hF => host_after (p := p) (fun j hj => h j (List.mem_cons_of_mem _ hj))
      (host_next (h _ List.mem_cons_self) hF)

theorem event_after {e : Ev} : ∀ {p : List (Instr Str Ev Val)} {k : Know Cell Str Ev},
    (∀ i ∈ p, ¬Changes i F ∧ ¬Marks e i) → F ∈ k.event e → F ∈ (k.after p).event e
  | [], _, _, hF => hF
  | _ :: p, _, h, hF => event_after (p := p) (fun j hj => h j (List.mem_cons_of_mem _ hj))
      (event_next (h _ List.mem_cons_self).1 (h _ List.mem_cons_self).2 hF)

theorem behind_after {s : Str} : ∀ {p : List (Instr Str Ev Val)} {k : Know Cell Str Ev},
    (∀ i ∈ p, ¬Changes i F) → F ∈ k.behind s → F ∈ (k.after p).behind s
  | [], _, _, hF => hF
  | _ :: p, _, h, hF => behind_after (p := p) (fun j hj => h j (List.mem_cons_of_mem _ hj))
      (behind_next (h _ List.mem_cons_self) hF)

theorem recorded_next {e : Ev} (he : e ∈ k.recorded) : e ∈ (k.next i).recorded := by
  cases i with
  | record => exact Or.inr he
  | _ => exact he

theorem recorded_after {e : Ev} : ∀ {p : List (Instr Str Ev Val)} {k : Know Cell Str Ev},
    e ∈ k.recorded → e ∈ (k.after p).recorded
  | [], _, he => he
  | _ :: p, _, he => recorded_after (p := p) (recorded_next he)

/-- A stream does not forget by its own operations. -/
theorem behind_launch {s : Str} (op : Move Val) (hF : F ∈ k.behind s) :
    F ∈ (k.next (.launch s op : Instr Str Ev Val)).behind s := by
  refine Or.inl ?_
  simp only [next, issue, if_true]
  exact hF

theorem event_record {s : Str} (e : Ev) (hF : F ∈ k.behind s) :
    F ∈ (k.next (.record e s : Instr Str Ev Val)).event e := by
  simp only [next, if_true]
  exact Or.inr hF

theorem behind_record {s : Str} (e : Ev) (hF : F ∈ k.behind s) :
    F ∈ (k.next (.record e s : Instr Str Ev Val)).behind s := by
  refine Or.inl ?_
  simp only [next, if_true]
  exact Or.inr hF

theorem mark_behind_record (s : Str) (e : Ev) :
    Sum.inr e ∈ (k.next (.record e s : Instr Str Ev Val)).behind s := by
  refine Or.inl ?_
  simp only [next, if_true]
  exact Or.inl rfl

theorem behind_wait {e : Ev} (s : Str) (hF : F ∈ k.event e) :
    F ∈ (k.next (.wait s e : Instr Str Ev Val)).behind s := by
  refine Or.inl ?_
  simp only [next, if_true]
  exact Or.inr hF

/-- The operations of a loop, all issued to one stream. -/
theorem along_launches {ι : Type*} {s : Str} {f : ι → Move Val} : ∀ {is : List ι}
    {k : Know Cell Str Ev}, (∀ i ∈ is, ∀ c, (f i).Touches c → Sum.inl c ∈ k.behind s) →
      Along Safe k (is.map fun i => .launch s (f i))
  | [], _, _ => trivial
  | i :: _, _, h => ⟨h i List.mem_cons_self, along_launches fun j hj c hc =>
      behind_launch _ (h j (List.mem_cons_of_mem _ hj) c hc)⟩

theorem behind_launches {ι : Type*} {s : Str} {f : ι → Move Val} : ∀ (is : List ι)
    {k : Know Cell Str Ev}, F ∈ k.behind s →
      F ∈ (k.after (is.map fun i => (.launch s (f i) : Instr Str Ev Val))).behind s
  | [], _, hF => hF
  | i :: is, _, hF => behind_launches is (behind_launch (f i) hF)

end Know

/-- What a fact is about. -/
def Concerns (last : Ev → Option ℕ) : Fact Cell Ev → Str × Cmd Val → Prop
  | .inl c => On c
  | .inr e => Puts (last e)

/-- The facts hold. -/
structure Know.Valid (k : Know Cell Str Ev) (P : Pending Str Val) (last : Ev → Option ℕ) :
    Prop where
  host : ∀ F ∈ k.host, ∀ x ∈ P, ¬Concerns last F x
  stream : ∀ s, ∀ F ∈ k.stream s, Until P (fun x => x.1 = s) (Concerns last F)
  event : ∀ e, ∀ F ∈ k.event e, Until P (Puts (last e)) (Concerns last F)
  recorded : ∀ e ∈ k.recorded, (last e).isSome

namespace Know.Valid

section keeps

variable {k : Know Cell Str Ev} {P Q : Pending Str Val} {last : Ev → Option ℕ}

theorem all (last : Ev → Option ℕ) :
    (all : Know Cell Str Ev).Valid ([] : Pending Str Val) last where
  host _ _ _ hx := by cases hx
  stream _ _ hF := by cases hF
  event _ _ hF := by cases hF
  recorded _ he := by cases he

theorem drop (h : k.Valid P last) (hdrop : Drop P Q) : k.Valid Q last where
  host F hF x hx := h.host F hF x (hdrop.sublist.subset hx)
  stream s F hF := (h.stream s F hF).drop hdrop
  event e F hF := (h.event e F hF).drop hdrop
  recorded := h.recorded

theorem stream_or_host (h : k.Valid P last) {s : Str} {F : Fact Cell Ev}
    (hF : F ∈ k.stream s ∪ k.host) : Until P (fun x => x.1 = s) (Concerns last F) := by
  rcases hF with hF | hF
  · exact h.stream s F hF
  · exact .of_forall (h.host F hF)

/-- A fact about `P` is one about what was issued next, when that is something else. -/
theorem host_append (h : k.Valid P last) {F : Fact Cell Ev} (hF : F ∈ k.host)
    {y : Str × Cmd Val} (hy : ¬Concerns last F y) : ∀ x ∈ P ++ [y], ¬Concerns last F x := by
  intro x hx
  rcases List.mem_append.mp hx with hx | hx
  · exact h.host F hF x hx
  · rw [List.mem_singleton.mp hx]
    exact hy

end keeps

variable [DecidableEq Str] [DecidableEq Ev] {k : Know Cell Str Ev} {P : Pending Str Val}
  {last : Ev → Option ℕ}

theorem launch (h : k.Valid P last) (s : Str) (op : Move Val) :
    (k.next (.launch s op : Instr Str Ev Val)).Valid (P ++ [(s, .run op)]) last := by
  have hnot : ∀ {F : Fact Cell Ev}, F ∉ {x | ∃ c, op.Touches c ∧ x = Sum.inl c} →
      ¬Concerns last F (s, Cmd.run op) := by
    intro F hF hcon
    rcases F with c | e
    · obtain ⟨op', heq, hc⟩ := hcon
      cases heq
      exact hF ⟨c, hc, rfl⟩
    · obtain ⟨n, -, hn⟩ := hcon
      cases hn
  refine ⟨fun F hF => h.host_append hF.1 (hnot hF.2), fun s' F hF => ?_,
    fun e F hF => (h.event e F hF.1).append (Or.inr (hnot hF.2)), h.recorded⟩
  simp only [next, issue] at hF
  split_ifs at hF with hs
  · subst hs
    exact (h.stream_or_host hF).append (Or.inl rfl)
  · exact (h.stream s' F hF.1).append (Or.inr (hnot hF.2))

theorem record (h : k.Valid P last) {n : ℕ} (hfresh : ∀ x ∈ P, ¬Puts (some n) x)
    (hlast : ∀ e, last e ≠ some n) (e : Ev) (s : Str) :
    (k.next (.record e s : Instr Str Ev Val)).Valid (P ++ [(s, .record n)])
      (Function.update last e (some n)) := by
  -- a fact about another event, or about a cell, has not changed
  have hsame : ∀ {F : Fact Cell Ev}, F ≠ Sum.inr e →
      (Concerns (Function.update last e (some n)) F : Str × Cmd Val → Prop) =
        Concerns last F := by
    intro F hF
    rcases F with c | e'
    · rfl
    · have hne : e' ≠ e := by
        rintro rfl
        exact hF rfl
      rw [Concerns, Concerns, Function.update_of_ne hne]
  have hnot : ∀ F : Fact Cell Ev, ¬Concerns last F (s, (Cmd.record n : Cmd Val)) := by
    intro F hcon
    rcases F with c | e'
    · obtain ⟨op, heq, -⟩ := hcon
      cases heq
    · obtain ⟨m, hm, hput⟩ := hcon
      rw [Cmd.isRecord, beq_iff_eq] at hput
      exact hlast e' (hput ▸ hm)
  refine ⟨fun F hF => ?_, fun s' F hF => ?_, fun e' F hF => ?_, fun e' he' => ?_⟩
  · rw [hsame hF.2]
    exact h.host_append hF.1 (hnot F)
  · simp only [next] at hF
    by_cases hFe : F = Sum.inr e
    · subst hFe
      split_ifs at hF with hs
      · refine Until.append (.of_forall fun x hx => ?_) (Or.inl hs.symm)
        rw [Concerns, Function.update_self]
        exact hfresh x hx
      · exact (hF.2 rfl).elim
    · rw [hsame hFe]
      split_ifs at hF with hs
      · subst hs
        exact (h.stream_or_host (hF.resolve_left hFe)).append (Or.inl rfl)
      · exact (h.stream s' F hF.1).append (Or.inr (hnot F))
  · simp only [next] at hF
    by_cases hFe : F = Sum.inr e
    · subst hFe
      split_ifs at hF with he
      · subst he
        exact fun _ _ hdone => hdone
      · exact (hF.2 rfl).elim
    · rw [hsame hFe]
      split_ifs at hF with he
      · subst he
        rw [Function.update_self]
        exact (h.stream_or_host (hF.resolve_left hFe)).record
      · rw [Function.update_of_ne he]
        exact (h.event e' F hF.1).append (Or.inr (hnot F))
  · by_cases he : e' = e
    · rw [he, Function.update_self]
      rfl
    · rw [Function.update_of_ne he]
      exact h.recorded e' (he'.resolve_left he)

theorem wait (h : k.Valid P last) (s : Str) (e : Ev) :
    (k.next (.wait s e : Instr Str Ev Val)).Valid (P ++ [(s, .wait (last e))]) last := by
  have hnot : ∀ F : Fact Cell Ev, ¬Concerns last F (s, (Cmd.wait (last e) : Cmd Val)) := by
    intro F hcon
    rcases F with c | e'
    · obtain ⟨op, heq, -⟩ := hcon
      cases heq
    · obtain ⟨m, -, hput⟩ := hcon
      cases hput
  refine ⟨fun F hF => h.host_append hF (hnot F), fun s' F hF => ?_,
    fun e' F hF => (h.event e' F hF).append (Or.inr (hnot F)), h.recorded⟩
  simp only [next] at hF
  split_ifs at hF with hs
  · subst hs
    rcases hF with hF | hF
    · exact (h.stream_or_host hF).append (Or.inl rfl)
    · exact (h.event e F hF).wait
  · exact (h.stream s' F hF).append (Or.inr (hnot F))

theorem syncEvent (h : k.Valid P last) {e : Ev} (hdone : reached P (last e) = true) :
    (k.next (.syncEvent e : Instr Str Ev Val)).Valid P last := by
  refine ⟨fun F hF => ?_, h.stream, h.event, h.recorded⟩
  rcases hF with hF | hF
  · exact h.host F hF
  · exact h.event e F hF P .refl (reached_iff.mp hdone)

theorem syncStream (h : k.Valid P last) {s : Str} (hdone : ∀ x ∈ P, x.1 ≠ s) :
    (k.next (.syncStream s : Instr Str Ev Val)).Valid P last := by
  refine ⟨fun F hF => ?_, h.stream, h.event, h.recorded⟩
  rcases hF with hF | hF
  · exact h.host F hF
  · exact h.stream s F hF P .refl hdone

end Know.Valid

/-! ## Every schedule -/

section memory

variable [DecidableEq Cell]

def Cmd.eval : Cmd Val → (∀ c, Val c) → ∀ c, Val c
  | .run op, m => op.run m
  | _, m => m

def Instr.eval : Instr Str Ev Val → (∀ c, Val c) → ∀ c, Val c
  | .launch _ op, m => op.run m
  | .host op, m => op.run m
  | _, m => m

/-- The memory when all that is pending has run in the order of issue. -/
def flush (P : Pending Str Val) (m : ∀ c, Val c) : ∀ c, Val c := P.foldl (fun m x => x.2.eval m) m

/-- The operations of a program in program order. -/
def seq (prog : List (Instr Str Ev Val)) (m : ∀ c, Val c) : ∀ c, Val c :=
  prog.foldl (fun m i => i.eval m) m

theorem seq_append (p q : List (Instr Str Ev Val)) (m : ∀ c, Val c) :
    seq (p ++ q) m = seq q (seq p m) := List.foldl_append

theorem seq_snoc (p : List (Instr Str Ev Val)) (i : Instr Str Ev Val) (m : ∀ c, Val c) :
    seq (p ++ [i]) m = i.eval (seq p m) := seq_append p [i] m

/-- The operations of a loop leave the other cells alone. -/
theorem seq_launches_of_ne {ι : Type*} {s : Str} {f : ι → Move Val} {c : Cell} : ∀ {is : List ι},
    (∀ i ∈ is, c ≠ (f i).dst) → ∀ m : ∀ c, Val c,
      seq (is.map fun i => (.launch s (f i) : Instr Str Ev Val)) m c = m c
  | [], _, _ => rfl
  | i :: is, h, m => by
    have hrest : seq (is.map fun i => (.launch s (f i) : Instr Str Ev Val)) ((f i).run m) c =
        (f i).run m c :=
      seq_launches_of_ne (fun j hj => h j (List.mem_cons_of_mem _ hj)) _
    exact hrest.trans (Move.run_of_ne (h i List.mem_cons_self) m)

/-- An operation can run before others on other cells. -/
theorem flush_run {op : Move Val} : ∀ {P : Pending Str Val},
    (∀ c, op.Touches c → ∀ x ∈ P, ¬On c x) → ∀ m, flush P (op.run m) = op.run (flush P m)
  | [], _, _ => rfl
  | (s, c) :: P, h, m => by
    have hrest := flush_run (P := P) fun c hc x hx => h c hc x (List.mem_cons_of_mem _ hx)
    have hhead : c.eval (op.run m) = op.run (c.eval m) := by
      cases c with
      | run op' =>
        refine Move.run_comm (fun cell hcell hop => ?_) m
        exact h cell hop (s, .run op') List.mem_cons_self ⟨op', rfl, hcell⟩
      | _ => rfl
    rw [flush, List.foldl_cons, hhead]
    exact hrest _

/-- Without operations nothing changes. -/
theorem flush_of_forall : ∀ {P : Pending Str Val}, (∀ c : Cell, ∀ x ∈ P, ¬On c x) →
    ∀ m, flush P m = m
  | [], _, _ => rfl
  | (s, c) :: P, h, m => by
    have hrest := flush_of_forall (P := P) fun c x hx => h c x (List.mem_cons_of_mem _ hx)
    cases c with
    | run op => exact (h op.src (s, .run op) List.mem_cons_self ⟨op, rfl, Or.inl rfl⟩).elim
    | _ => exact hrest m

end memory

variable [DecidableEq Cell] [DecidableEq Str] [DecidableEq Ev]

/-- The program `p` has been issued, and `d.todo` is to come. -/
structure Inv (m : ∀ c, Val c) (p : List (Instr Str Ev Val)) (d : Device Str Ev Val) : Prop where
  valid : (Know.all.after p).Valid d.pending d.last
  safe : Know.Along Know.Safe (Know.all.after p) d.todo
  mem : flush d.pending d.mem = seq p m
  ordered : Ordered d.pending
  marks : ∀ x ∈ d.pending, ∀ n, x.2 = .record n ∨ x.2 = .wait (some n) → n < d.marks
  last : ∀ e n, d.last e = some n → n < d.marks

variable {m : ∀ c, Val c} {p q : List (Instr Str Ev Val)} {d d' : Device Str Ev Val}

theorem inv_start (h : Know.Along Know.Safe Know.all p) : Inv m [] (Device.start m p) where
  valid := .all _
  safe := h
  mem := rfl
  ordered := .nil
  marks _ hx := by cases hx
  last _ _ h := by cases h

namespace Inv

theorem not_puts (h : Inv m p d) : ∀ x ∈ d.pending, ¬Puts (some d.marks) x := by
  rintro ⟨s, c⟩ hx ⟨n, hn, hput⟩
  cases c with
  | record n' =>
    rw [Cmd.isRecord, beq_iff_eq] at hput
    have hlt := h.marks _ hx n' (Or.inl rfl)
    rw [hput, ← Option.some.inj hn] at hlt
    exact (Nat.lt_irrefl _ hlt)
  | _ => cases hput

theorem stream (h : Inv m p d) {s : Str} (hs : d.step (.stream s) = some d') :
    Inv m p d' ∧ d'.todo = d.todo ∧ d'.raised = d.raised := by
  simp only [Device.step] at hs
  split at hs
  · cases hs
  rename_i c P hnext
  split_ifs at hs with hready
  obtain ⟨l, r, hP, rfl, hfirst⟩ := takeNext_eq_some hnext
  have hdrop : Drop d.pending (l ++ r) := by
    rw [hP] at hready ⊢
    exact .mk hfirst hready
  have hmarks : ∀ x ∈ l ++ r, ∀ n, x.2 = .record n ∨ x.2 = .wait (some n) → n < d.marks :=
    fun x hx => h.marks x (hdrop.sublist.subset hx)
  have hmem := h.mem
  rw [hP, flush, List.foldl_append, List.foldl_cons] at hmem
  cases c with
  | run op =>
    cases hs
    refine ⟨⟨h.valid.drop hdrop, h.safe, ?_, h.ordered.drop hdrop, hmarks, h.last⟩, rfl, rfl⟩
    have hfree : ∀ c, op.Touches c → ∀ x ∈ l, ¬On c x := fun c hc x hx =>
      h.ordered.guarded l s op r hP c hc l .refl hfirst x hx
    have hswap : flush l (op.run d.mem) = op.run (flush l d.mem) := flush_run hfree d.mem
    change flush (l ++ r) (op.run d.mem) = seq p m
    rw [flush, List.foldl_append, ← hmem]
    exact congrArg (flush r) hswap
  | record n | wait n =>
    cases hs
    refine ⟨⟨h.valid.drop hdrop, h.safe, ?_, h.ordered.drop hdrop, hmarks, h.last⟩, rfl, rfl⟩
    change flush (l ++ r) d.mem = seq p m
    rw [flush, List.foldl_append]
    exact hmem

/-- A command is issued after all that it has to come after, a mark under a new number. -/
theorem ordered_append (h : Inv m p d) {x : Str × Cmd Val}
    (hrun : ∀ y, x.2 = .run y → ∀ c, y.Touches c → Until d.pending (fun z => z.1 = x.1) (On c))
    (hrec : ∀ n, x.2 = .record n → n = d.marks) : Ordered (d.pending ++ [x]) := by
  refine h.ordered.append hrun fun s n hmem hput => ?_
  obtain ⟨s', c⟩ := x
  obtain ⟨n', hn', hput⟩ := hput
  cases c with
  | record n'' =>
    rw [Cmd.isRecord, beq_iff_eq] at hput
    have hlt := h.marks _ hmem n (Or.inr rfl)
    have heq := hrec n'' rfl
    have := Option.some.inj hn'
    omega
  | _ => cases hput

theorem marks_append (h : Inv m p d) {x : Str × Cmd Val} {bound : ℕ} (hle : d.marks ≤ bound)
    (hx : ∀ n, x.2 = .record n ∨ x.2 = .wait (some n) → n < bound) :
    ∀ y ∈ d.pending ++ [x], ∀ n, y.2 = .record n ∨ y.2 = .wait (some n) → n < bound := by
  intro y hy n hn
  rcases List.mem_append.mp hy with hy | hy
  · exact Nat.lt_of_lt_of_le (h.marks y hy n hn) hle
  · rw [List.mem_singleton.mp hy] at hn
    exact hx n hn

theorem flush_append (h : Inv m p d) (x : Str × Cmd Val) :
    flush (d.pending ++ [x]) d.mem = x.2.eval (seq p m) := by
  rw [← h.mem, flush, List.foldl_append]
  rfl

/-- The host thread issues `i`, or waits, or works on the memory. -/
theorem host (h : Inv m p d) {i : Instr Str Ev Val} {todo : List (Instr Str Ev Val)}
    (htodo : d.todo = i :: todo) (hs : d.step .host = some d') (hraised : d'.raised = false) :
    Inv m (p ++ [i]) d' ∧ d'.todo = todo := by
  have hafter : Know.all.after (p ++ [i]) = (Know.all.after p).next i := Know.after_append _ p [i]
  obtain ⟨hsafe, hrest⟩ : (Know.all.after p).Safe i ∧ Know.Along Know.Safe _ todo := by
    have hsafe := h.safe
    rw [htodo] at hsafe
    exact hsafe
  simp only [Device.step, htodo] at hs
  cases i with
  | launch s op =>
    cases hs
    refine ⟨⟨hafter ▸ h.valid.launch s op, hafter ▸ hrest, ?_, h.ordered_append ?_ nofun,
      h.marks_append le_rfl (by simp), h.last⟩, rfl⟩
    · rw [seq_snoc]
      exact h.flush_append _
    · intro op' heq c hc
      cases heq
      exact h.valid.stream_or_host (hsafe c hc)
  | record e s =>
    cases hs
    have hlast : ∀ e, d.last e ≠ some d.marks := fun e he => Nat.lt_irrefl _ (h.last e _ he)
    refine ⟨⟨hafter ▸ h.valid.record h.not_puts hlast e s, hafter ▸ hrest, ?_,
      h.ordered_append nofun ?_, h.marks_append (Nat.le_succ _) ?_, fun e' n hn => ?_⟩, rfl⟩
    · rw [seq_snoc]
      exact h.flush_append _
    · intro n hn
      cases hn
      rfl
    · intro n hn
      rcases hn with hn | hn
      · cases hn
        exact Nat.lt_succ_self _
      · cases hn
    · dsimp only at hn
      by_cases he : e' = e
      · subst he
        rw [Function.update_self] at hn
        rw [← Option.some.inj hn]
        exact Nat.lt_succ_self _
      · rw [Function.update_of_ne he] at hn
        exact Nat.lt_succ_of_lt (h.last e' n hn)
  | wait s e =>
    cases hs
    refine ⟨⟨hafter ▸ h.valid.wait s e, hafter ▸ hrest, ?_, h.ordered_append nofun nofun,
      h.marks_append le_rfl ?_, h.last⟩, rfl⟩
    · rw [seq_snoc]
      exact h.flush_append _
    · intro n hn
      rcases hn with hn | hn
      · cases hn
      · exact h.last e n (Cmd.wait.inj hn)
  | host op =>
    cases hs
    have hfree : ∀ c, op.Touches c → ∀ x ∈ d.pending, ¬On c x := fun c hc =>
      h.valid.host (Sum.inl c) (hsafe c hc)
    refine ⟨⟨hafter ▸ h.valid, hafter ▸ hrest, ?_, h.ordered, h.marks, h.last⟩, rfl⟩
    rw [seq_snoc, ← h.mem]
    exact flush_run hfree d.mem
  | syncEvent e =>
    dsimp only at hs
    split_ifs at hs with hdone
    cases hs
    exact ⟨⟨hafter ▸ h.valid.syncEvent hdone, hafter ▸ hrest, (seq_snoc p _ m).symm ▸ h.mem,
      h.ordered, h.marks, h.last⟩, rfl⟩
  | syncStream s =>
    dsimp only at hs
    split_ifs at hs with hdone
    cases hs
    have hdone' : ∀ x ∈ d.pending, x.1 ≠ s := by simpa using hdone
    exact ⟨⟨hafter ▸ h.valid.syncStream hdone', hafter ▸ hrest, (seq_snoc p _ m).symm ▸ h.mem,
      h.ordered, h.marks, h.last⟩, rfl⟩
  | elapsed begin stop =>
    dsimp only at hs
    split_ifs at hs
    · cases hs
      exact ⟨⟨hafter ▸ h.valid, hafter ▸ hrest, (seq_snoc p _ m).symm ▸ h.mem, h.ordered,
        h.marks, h.last⟩, rfl⟩
    · cases hs
      cases hraised

/-- Where the host relies on every cell, the memory is what the program says. -/
theorem mem_eq (h : Inv m p d)
    (hall : ∀ c, Sum.inl c ∈ (Know.all.after p : Know Cell Str Ev).host) : d.mem = seq p m := by
  rw [← h.mem]
  exact (flush_of_forall (fun c => h.valid.host _ (hall c)) d.mem).symm

theorem measurable_iff (h : Inv m p d) {e : Ev}
    (hrec : e ∈ (Know.all.after p : Know Cell Str Ev).recorded) :
    d.measurable e = true ↔ ∀ x ∈ d.pending, ¬Puts (d.last e) x := by
  rw [Device.measurable, h.valid.recorded e hrec, Bool.true_and, reached_iff]

end Inv

/-- A device whose thread has not raised has issued a part of the program. -/
def Issued (m : ∀ c, Val c) (prog : List (Instr Str Ev Val)) (d : Device Str Ev Val) : Prop :=
  d.raised = false → ∃ p, prog = p ++ d.todo ∧ Inv m p d

/-- Nothing takes an exception back. -/
theorem raised_mono {l : Label Str} (hs : d.step l = some d') (hraised : d'.raised = false) :
    d.raised = false := by
  cases l with
  | host =>
    rcases htodo : d.todo with _ | ⟨i, todo⟩
    · simp only [Device.step, htodo] at hs
      cases hs
    simp only [Device.step, htodo] at hs
    cases i with
    | launch | record | wait | host =>
      cases hs
      exact hraised
    | syncEvent | syncStream =>
      dsimp only at hs
      split_ifs at hs
      cases hs
      exact hraised
    | elapsed =>
      dsimp only at hs
      split_ifs at hs
      · cases hs
        exact hraised
      · cases hs
        cases hraised
  | stream s =>
    simp only [Device.step] at hs
    split at hs
    · cases hs
    · split_ifs at hs
      split at hs
      · cases hs
        exact hraised
      · cases hs
        exact hraised

theorem Issued.step {prog : List (Instr Str Ev Val)} {l : Label Str} (h : Issued m prog d)
    (hs : d.step l = some d') : Issued m prog d' := by
  intro hraised
  obtain ⟨p, hprog, hinv⟩ := h (raised_mono hs hraised)
  cases l with
  | host =>
    rcases htodo : d.todo with _ | ⟨i, todo⟩
    · simp only [Device.step, htodo] at hs
      cases hs
    · obtain ⟨hinv', htodo'⟩ := hinv.host htodo hs hraised
      exact ⟨p ++ [i], by rw [hprog, htodo, htodo', List.append_assoc]; rfl, hinv'⟩
  | stream s =>
    obtain ⟨hinv', htodo', -⟩ := hinv.stream hs
    exact ⟨p, by rw [hprog, htodo'], hinv'⟩

/-- Any run of the device. -/
abbrev Runs (d : Device Str Ev Val) (labels : List (Label Str)) (d' : Device Str Ev Val) : Prop :=
  Run Device.step (fun _ _ => True) d labels d'

theorem issued_of_run {labels : List (Label Str)} (hsafe : Know.Along Know.Safe Know.all q)
    (hrun : Runs (.start m q) labels d) : Issued m q d :=
  hrun.invariant (Issued m q) (fun _ => ⟨[], rfl, inv_start hsafe⟩) fun _ _ _ h _ hs => h.step hs

/-! ## Schedules that get on -/

/-- The oldest command of all can always run. -/
theorem Inv.step_oldest (h : Inv m p d) {x : Str × Cmd Val} {P : Pending Str Val}
    (hpending : d.pending = x :: P) :
    ∃ d', d.step (.stream x.1) = some d' ∧ d'.pending = P := by
  have hnext : takeNext x.1 d.pending = some (x.2, P) := by rw [hpending, takeNext, if_pos rfl]
  have hready : x.2.ready d.pending = true := by
    have hordered := h.ordered
    rw [hpending] at hordered ⊢
    exact hordered.ready_head
  obtain ⟨s, c⟩ := x
  simp only [Device.step, hnext, hready, if_true]
  cases c <;> exact ⟨_, rfl, rfl⟩

/-- The streams can run all they have. -/
theorem Inv.drain : ∀ (P : Pending Str Val) {d : Device Str Ev Val}, Inv m p d → d.pending = P →
    ∃ labels d', Runs d labels d' ∧ Inv m p d' ∧ d'.pending = [] ∧ d'.todo = d.todo ∧
      d'.raised = d.raised
  | [], d, h, hP => ⟨[], d, .refl, h, hP, rfl, rfl⟩
  | x :: P, d, h, hP => by
    obtain ⟨d', hs, hP'⟩ := h.step_oldest hP
    obtain ⟨h', htodo, hraised⟩ := h.stream hs
    obtain ⟨labels, d'', hrun, hinv, hnil, htodo', hraised'⟩ := Inv.drain P h' hP'
    exact ⟨_, d'', .cons trivial hs hrun, hinv, hnil, htodo'.trans htodo, hraised'.trans hraised⟩

/-- With nothing pending the host does not wait, and its events are done. -/
theorem Inv.step_host (h : Inv m p d) {i : Instr Str Ev Val} {todo : List (Instr Str Ev Val)}
    (htodo : d.todo = i :: todo) (hnil : d.pending = []) (hraised : d.raised = false) :
    ∃ d', d.step .host = some d' ∧ d'.raised = false := by
  have hsafe := h.safe
  rw [htodo] at hsafe
  have hreached : ∀ mark, reached d.pending mark = true := fun mark => by
    rw [hnil]
    cases mark <;> rfl
  cases i with
  | launch | record | wait | host =>
    simp only [Device.step, htodo]
    exact ⟨_, rfl, hraised⟩
  | syncEvent e =>
    simp only [Device.step, htodo, hreached, if_true]
    exact ⟨_, rfl, hraised⟩
  | syncStream s =>
    simp only [Device.step, htodo, hnil, List.all_nil, if_true]
    exact ⟨_, rfl, hraised⟩
  | elapsed begin stop =>
    obtain ⟨⟨hbegin, hstop⟩, -⟩ := hsafe
    have hdone : ∀ e ∈ (Know.all.after p : Know Cell Str Ev).recorded, d.measurable e = true := by
      intro e he
      refine (h.measurable_iff he).mpr fun x hx => ?_
      rw [hnil] at hx
      cases hx
    simp only [Device.step, htodo, hdone _ hbegin, hdone _ hstop, Bool.and_true, if_true]
    exact ⟨_, rfl, hraised⟩

/-- From every state the next part of the program can be brought to its end, with nothing left
pending. -/
theorem Inv.exists_run {rest : List (Instr Str Ev Val)} : ∀ (q : List (Instr Str Ev Val))
    {p : List (Instr Str Ev Val)} {d : Device Str Ev Val}, Inv m p d → d.todo = q ++ rest →
    d.raised = false → ∃ labels d', Runs d labels d' ∧ Inv m (p ++ q) d' ∧ d'.todo = rest ∧
      d'.pending = [] ∧ d'.raised = false
  | [], p, d, h, htodo, hraised => by
    obtain ⟨labels, d', hrun, hinv, hnil, htodo', hraised'⟩ := h.drain _ rfl
    exact ⟨labels, d', hrun, by rwa [List.append_nil], htodo'.trans htodo, hnil,
      hraised'.trans hraised⟩
  | i :: q, p, d, h, htodo, hraised => by
    obtain ⟨labels₁, d₁, hrun₁, h₁, hnil, htodo₁, hraised₁⟩ := h.drain _ rfl
    have hi : d₁.todo = i :: (q ++ rest) := htodo₁.trans htodo
    obtain ⟨d₂, hs, hraised₂⟩ := h₁.step_host hi hnil (hraised₁.trans hraised)
    obtain ⟨h₂, htodo₂⟩ := h₁.host hi hs hraised₂
    obtain ⟨labels₃, d₃, hrun₃, h₃, htodo₃, hnil₃, hraised₃⟩ := Inv.exists_run q h₂ htodo₂ hraised₂
    refine ⟨labels₁ ++ (.host :: labels₃), d₃, hrun₁.trans (.cons trivial hs hrun₃), ?_, htodo₃,
      hnil₃, hraised₃⟩
    rwa [List.append_assoc, List.singleton_append] at h₃

/-! ## Measurements -/

/-- In every schedule the events that are measured are done. -/
def Device.SafelyTimed (d : Device Str Ev Val) : Prop :=
  ∀ labels d' begin stop todo, Runs d labels d' → d'.todo = .elapsed begin stop :: todo →
    d'.measurable begin = true ∧ d'.measurable stop = true

theorem Inv.measurable_of_timed (h : Inv m p d) {begin stop : Ev}
    {todo : List (Instr Str Ev Val)} (htodo : d.todo = .elapsed begin stop :: todo)
    (htimed : (Know.all.after p).Timed (.elapsed begin stop : Instr Str Ev Val)) :
    d.measurable begin = true ∧ d.measurable stop = true := by
  have hsafe := h.safe
  rw [htodo] at hsafe
  have hdone : ∀ e ∈ (Know.all.after p : Know Cell Str Ev).recorded,
      Sum.inr e ∈ (Know.all.after p : Know Cell Str Ev).host → d.measurable e = true :=
    fun e he hhost => (h.measurable_iff he).mpr (h.valid.host (Sum.inr e) hhost)
  exact ⟨hdone _ hsafe.1.1 htimed.1, hdone _ hsafe.1.2 htimed.2⟩

theorem Inv.raised_of_timed (h : Inv m p d) {i : Instr Str Ev Val}
    {todo : List (Instr Str Ev Val)} (htodo : d.todo = i :: todo)
    (htimed : (Know.all.after p).Timed i) (hs : d.step .host = some d') : d'.raised = d.raised := by
  simp only [Device.step, htodo] at hs
  cases i with
  | launch | record | wait | host =>
    cases hs
    rfl
  | syncEvent | syncStream =>
    dsimp only at hs
    split_ifs at hs
    cases hs
    rfl
  | elapsed begin stop =>
    obtain ⟨hbegin, hstop⟩ := h.measurable_of_timed htodo htimed
    simp only [hbegin, hstop, Bool.and_true, if_true] at hs
    cases hs
    rfl

/-- A program that measures only events that are known to be done. -/
theorem Inv.safelyTimed (h : Inv m p d) (hraised : d.raised = false)
    (htimed : Know.Along Know.Timed (Know.all.after p) d.todo) : d.SafelyTimed := by
  intro labels d' begin stop todo hrun htodo
  obtain ⟨-, p', h', htimed'⟩ := hrun.invariant (fun d => d.raised = false ∧ ∃ p, Inv m p d ∧
    Know.Along Know.Timed (Know.all.after p) d.todo) ⟨hraised, p, h, htimed⟩ <| by
      rintro d l d' ⟨hraised, p, h, htimed⟩ - hs
      cases l with
      | host =>
        rcases htodo : d.todo with _ | ⟨i, todo⟩
        · simp only [Device.step, htodo] at hs
          cases hs
        · rw [htodo] at htimed
          have hraised' := (h.raised_of_timed htodo htimed.1 hs).trans hraised
          obtain ⟨h', htodo'⟩ := h.host htodo hs hraised'
          refine ⟨hraised', p ++ [i], h', ?_⟩
          rw [htodo', Know.after_append]
          exact htimed.2
      | stream s =>
        obtain ⟨h', htodo', hraised'⟩ := h.stream hs
        exact ⟨hraised'.trans hraised, p, h', htodo'.symm ▸ htimed⟩
  rw [htodo] at htimed'
  exact h'.measurable_of_timed htodo htimed'.1

/-- The last mark of the event is still pending in the stream. -/
def Device.Due (d : Device Str Ev Val) (e : Ev) (s : Str) : Prop :=
  ∃ n, d.last e = some n ∧ (s, .record n) ∈ d.pending

omit [DecidableEq Cell] [DecidableEq Str] [DecidableEq Ev] in
theorem Device.Due.not_measurable {e : Ev} {s : Str} (h : d.Due e s) :
    ¬d.measurable e = true := by
  obtain ⟨n, hlast, hx⟩ := h
  have hnot : ¬reached d.pending (d.last e) = true := fun hreached =>
    reached_iff.mp hreached _ hx ⟨n, hlast, by rw [Cmd.isRecord, beq_self_eq_true]⟩
  rw [Device.measurable, Bool.and_eq_true]
  exact fun hboth => hnot hboth.2

theorem Device.step_record {e : Ev} {s : Str} {todo : List (Instr Str Ev Val)}
    (htodo : d.todo = .record e s :: todo) :
    ∃ d', d.step .host = some d' ∧ d'.todo = todo ∧ d'.Due e s := by
  refine ⟨_, by simp only [Device.step, htodo]; rfl, rfl, d.marks, Function.update_self _ _ _, ?_⟩
  exact List.mem_append_right _ List.mem_cons_self

end Streams
