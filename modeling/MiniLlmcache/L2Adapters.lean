import MiniLlmcache.FileNames
import MiniLlmcache.LoadFromL2s
import MiniLlmcache.SerialWorker

/-!
# The two adapters behind their queues

`l2/base.py` with `l2/fs.py` and `l2/mock.py`. An adapter's thread takes the submitted tasks in turn
and resolves their futures, with a result or with what the task raised, so it is a `SerialWorker`.

`FSAdapter.write_once` : a file under its final name is never changed or removed again, whatever
tasks, failures and crashes follow, so a later `lookup` counts no less. `fs_serial` : every future
is resolved, in the order of submission, with what the files left by the earlier tasks say
(`FSAdapter.Serves`). `fs_eq_mock` : when the bytes of a chunk are a function of its key, as content
hashes make them, the filesystem adapter and the in-memory adapter cannot be told apart.
-/

namespace MiniLlmcache

/-- What the future of a task gets. -/
inductive L2Result
  | stored
  | hits (n : ℕ)
  /-- The slots counted, by the bytes they were filled with. -/
  | loaded (data : List Bytes)
deriving DecidableEq

namespace FSAdapter

variable {fs fs' : FSAdapter}

/-! ## Files are written once -/

/-- The file of the object under way is not there yet. -/
def Fresh (fs : FSAdapter) : Prop :=
  match fs.thread with
  | .write key _ _ _ | .replace key _ => fs.stored? (filename key) = none
  | _ => True

/-- No file under a final name is changed or lost. -/
def Keeps (fs fs' : FSAdapter) : Prop :=
  ∀ name data, fs.stored? name = some data → fs'.stored? name = some data

theorem Keeps.of_files (h : fs'.files = fs.files) : Keeps fs fs' := fun name data hget => by
  rwa [stored?, h]

theorem Fresh.next (h : fs.Fresh) (hs : fs.next = some fs') : fs'.Fresh ∧ Keeps fs fs' := by
  unfold FSAdapter.next at hs
  unfold Fresh at h
  split at hs <;> rename_i ht <;> rw [ht] at h
  case h_1 => simp at hs
  case h_3 key blob todo =>
    split_ifs at hs with hthere
    · cases hs
      exact ⟨trivial, .of_files rfl⟩
    · cases hs
      refine ⟨(get?_set_tmp _ _ _ _).trans ?_, fun name data hget => ?_⟩
      · simpa [OrderedDict.contains] using hthere
      · rwa [stored?, get?_set_tmp]
  case h_4 =>
    split_ifs at hs
    cases hs
    exact ⟨h, .of_files rfl⟩
  case h_5 key todo =>
    split at hs
    · cases hs
      exact ⟨trivial, .of_files rfl⟩
    · cases hs
      refine ⟨trivial, fun name data hget => ?_⟩
      have hne : filename key ≠ name := by
        rintro rfl
        rw [h] at hget
        cases hget
      rwa [stored?, get?_replace, if_neg hne]
  case h_7 =>
    split at hs <;> cases hs <;> exact ⟨trivial, .of_files rfl⟩
  case h_9 =>
    split at hs
    · cases hs
      exact ⟨trivial, .of_files rfl⟩
    · split_ifs at hs <;> cases hs <;> exact ⟨trivial, .of_files rfl⟩
  all_goals
    cases hs
    exact ⟨trivial, .of_files rfl⟩

theorem Fresh.write (h : fs.Fresh) {n : ℕ} (hs : fs.write n = some fs') :
    fs'.Fresh ∧ Keeps fs fs' := by
  unfold FSAdapter.write at hs
  unfold Fresh at h
  split at hs
  · rename_i ht
    rw [ht] at h
    split_ifs at hs
    cases hs
    refine ⟨(get?_set_tmp _ _ _ _).trans h, fun name data hget => ?_⟩
    rwa [stored?, get?_set_tmp]
  · cases hs

theorem Fresh.step {l : FSLabel} (h : fs.Fresh) (hs : fs.step l = some fs') :
    fs'.Fresh ∧ Keeps fs fs' := by
  rcases l with task | _ | n | _ | left
  · unfold FSAdapter.step at hs
    split_ifs at hs
    cases hs
    rcases task with items | keys | slots <;> exact ⟨trivial, .of_files rfl⟩
  · exact h.next hs
  · exact h.write hs
  · unfold FSAdapter.step at hs
    split_ifs at hs
    cases hs
    exact ⟨trivial, .of_files rfl⟩
  · cases hs
    refine ⟨trivial, fun name data hget => ?_⟩
    rwa [stored?, get?_leave]

theorem Reachable.fresh (h : fs.Reachable) : fs.Fresh := by
  obtain ⟨labels, hrun⟩ := h
  exact hrun.invariant Fresh trivial fun _ _ _ hi _ hs => (hi.step hs).1

/-- Along every run, with tasks, failures and crashes at any points. -/
theorem Reachable.keeps {ok : FSAdapter → FSLabel → Prop} {labels : List FSLabel}
    (h : fs.Reachable) (hrun : Run step ok fs labels fs') : Keeps fs fs' := by
  have hkeeps := hrun.invariant (fun t => t.Fresh ∧ Keeps fs t) ⟨h.fresh, fun _ _ hget => hget⟩
    fun t l t' hi _ hs => ?_
  · exact hkeeps.2
  · obtain ⟨hfresh, hstep⟩ := hi.1.step hs
    exact ⟨hfresh, fun name data hget => hstep name data (hi.2 name data hget)⟩

/-! ## What the tasks give -/

/-- The chunks of `keys` that are found, as a prefix. -/
def hitsOf (files : String → Option Bytes) (keys : List ChunkKey) : ℕ :=
  (keys.takeWhile fun key => (files (filename key)).isSome).length

/-- What a `load` fills its slots with, up to the first chunk that is missing or too short. -/
def loadedOf (files : String → Option Bytes) : List (ChunkKey × ℕ) → List Bytes
  | [] => []
  | (key, nbytes) :: slots =>
    match files (filename key) with
    | none => []
    | some data => if data.length < nbytes then [] else data.take nbytes :: loadedOf files slots

section loadedOf

variable {files : String → Option Bytes} {key : ChunkKey} {nbytes : ℕ} {data : Bytes}
  (slots : List (ChunkKey × ℕ))

theorem loadedOf_missing (h : files (filename key) = none) :
    loadedOf files ((key, nbytes) :: slots) = [] := by
  rw [loadedOf, h]

theorem loadedOf_short (h : files (filename key) = some data) (hlt : data.length < nbytes) :
    loadedOf files ((key, nbytes) :: slots) = [] := by
  rw [loadedOf, h]
  exact if_pos hlt

theorem loadedOf_full (h : files (filename key) = some data) (hle : ¬data.length < nbytes) :
    loadedOf files ((key, nbytes) :: slots) = data.take nbytes :: loadedOf files slots := by
  rw [loadedOf, h]
  exact if_neg hle

end loadedOf

/-- What a task makes of the files under their final names, and what its future gets. -/
inductive Serves (files : String → Option Bytes) :
    FSTask → Except Exc L2Result → (String → Option Bytes) → Prop
  | store (items : List (ChunkKey × Bytes)) :
      Serves files (.store items) (.ok .stored) fun name => (files name).or (first items name)
  | storeRaised (items : List (ChunkKey × Bytes)) (n : ℕ) (e : Exc) : Serves files (.store items)
      (.error e) fun name => (files name).or (first (items.take n) name)
  | lookup (keys : List ChunkKey) :
      Serves files (.lookup keys) (.ok (.hits (hitsOf files keys))) files
  | lookupRaised (keys : List ChunkKey) (e : Exc) : Serves files (.lookup keys) (.error e) files
  | load (slots : List (ChunkKey × ℕ)) :
      Serves files (.load slots) (.ok (.loaded (loadedOf files slots))) files
  | loadRaised (slots : List (ChunkKey × ℕ)) (e : Exc) : Serves files (.load slots) (.error e) files

/-- What the call that was under way in `fs` returns in `fs'`. -/
def outcome (fs fs' : FSAdapter) : L2Result :=
  match fs.thread with
  | .lookup _ hits => .hits hits
  | .load _ loaded =>
    .loaded ((fs'.filled.drop (fs'.filled.length - loaded)).map FSFill.data)
  | _ => .stored

/-- The adapter's thread between two `tasks.get()`. -/
def machine : TaskMachine FSAdapter FSTask (Except Exc L2Result) FSLabel where
  start := submit
  step fs
    | .next => fs.next.map fun fs' =>
      (fs', if fs'.thread = .idle then some (.ok (fs.outcome fs')) else none)
    | .write n => (fs.write n).map fun fs' => (fs', none)
    | .fail => (fs.step .fail).map fun fs' => (fs', some (.error .adapterError))
    | .submit _ | .crash _ => none

/-! ## Every task ends -/

/-- A bound on the accesses that objects still to store need. -/
def storeCost (todo : List (ChunkKey × Bytes)) : ℕ := (todo.map fun p => p.2.length + 3).sum

/-- A bound on the accesses that are left of the call under way. -/
def cost (fs : FSAdapter) : ℕ :=
  match fs.thread with
  | .idle => 0
  | .store todo => storeCost todo + 1
  | .write _ blob count todo => blob.length - count + (storeCost todo + 3)
  | .replace _ todo => storeCost todo + 2
  | .lookup todo _ => todo.length + 1
  | .load todo _ => todo.length + 1

def costOf : FSTask → ℕ
  | .store items => storeCost items + 1
  | .lookup keys => keys.length + 1
  | .load slots => slots.length + 1

theorem cost_start (fs : FSAdapter) (task : FSTask) :
    (machine.start fs task).cost ≤ costOf task := by
  cases task <;> exact le_rfl

/-- A call is under way, and has not written more than its object. -/
def Going (fs : FSAdapter) : Prop :=
  match fs.thread with
  | .idle => False
  | .write _ blob count _ => count ≤ blob.length
  | _ => True

/-- An access that does not end the call lowers the cost. -/
theorem going_next (hs : fs.next = some fs') (hbusy : fs'.thread ≠ .idle) :
    fs'.cost < fs.cost ∧ fs'.Going := by
  unfold FSAdapter.next at hs
  unfold cost
  split at hs <;> rename_i ht <;> rw [ht]
  case h_1 => cases hs
  case h_3 key blob todo =>
    split_ifs at hs
    · cases hs
      refine ⟨?_, trivial⟩
      simp only [storeCost, List.map_cons, List.sum_cons]
      omega
    · cases hs
      refine ⟨?_, Nat.zero_le _⟩
      simp only [storeCost, List.map_cons, List.sum_cons]
      omega
  case h_4 =>
    split_ifs at hs
    cases hs
    exact ⟨by dsimp only; omega, trivial⟩
  case h_5 =>
    split at hs
    · cases hs
      exact (hbusy rfl).elim
    · cases hs
      exact ⟨Nat.lt_succ_self _, trivial⟩
  case h_7 =>
    split at hs
    · cases hs
      exact (hbusy rfl).elim
    · cases hs
      exact ⟨Nat.lt_succ_self _, trivial⟩
  case h_9 =>
    split at hs
    · cases hs
      exact (hbusy rfl).elim
    · split_ifs at hs
      · cases hs
        exact (hbusy rfl).elim
      · cases hs
        exact ⟨Nat.lt_succ_self _, trivial⟩
  all_goals
    cases hs
    exact (hbusy rfl).elim

theorem going_write {n : ℕ} (hs : fs.write n = some fs') : fs'.cost < fs.cost ∧ fs'.Going := by
  unfold FSAdapter.write at hs
  unfold cost
  split at hs
  · rename_i ht
    rw [ht]
    split_ifs at hs with hn
    cases hs
    exact ⟨by dsimp only; omega, hn.2⟩
  · cases hs

/-- A step that does not end its task lowers the cost. -/
theorem step_going {l : FSLabel} (hs : machine.step fs l = some (fs', none)) :
    fs'.cost < fs.cost ∧ fs'.Going := by
  cases l with
  | next =>
    obtain ⟨t, ht, heq⟩ := Option.map_eq_some_iff.mp hs
    obtain ⟨rfl, hres⟩ := Prod.mk.inj heq
    have hbusy : t.thread ≠ .idle := fun hidle => by
      rw [if_pos hidle] at hres
      cases hres
    exact going_next ht hbusy
  | write n =>
    obtain ⟨t, ht, heq⟩ := Option.map_eq_some_iff.mp hs
    obtain ⟨rfl, -⟩ := Prod.mk.inj heq
    exact going_write ht
  | fail =>
    obtain ⟨t, -, heq⟩ := Option.map_eq_some_iff.mp hs
    cases heq
  | submit task => cases hs
  | crash left => cases hs

theorem going_of_works {task : FSTask} (h : machine.Works (machine.start fs task) fs') :
    fs'.Going := by
  cases h with
  | refl => cases task <;> trivial
  | snoc _ hs => exact (step_going hs).2

/-- A call under way can go on without an exception. -/
theorem Going.exists_step (h : fs.Going) : ∃ l, l ≠ .fail ∧ machine.step fs l ≠ none := by
  have hnext : ∀ fs'', fs.next = some fs'' → ∃ l, l ≠ .fail ∧ machine.step fs l ≠ none := by
    intro fs'' hs
    refine ⟨.next, by rintro ⟨⟩, ?_⟩
    simp [machine, hs]
  unfold Going at h
  by_cases hwritten : ∀ key blob count todo, fs.thread = .write key blob count todo →
      count = blob.length
  · obtain ⟨fs'', hs⟩ := exists_next (fun hidle => by rwa [hidle] at h) hwritten
    exact hnext fs'' hs
  · simp only [not_forall] at hwritten
    obtain ⟨key, blob, count, todo, ht, hne⟩ := hwritten
    rw [ht] at h
    dsimp only at h
    refine ⟨.write (blob.length - count), by rintro ⟨⟩, ?_⟩
    have hroom : 0 < blob.length - count ∧ count + (blob.length - count) ≤ blob.length := by omega
    simp [machine, FSAdapter.write, ht, hroom]

/-! ## What a task gives -/

variable {old : FSAdapter}

/-- Where a `lookup` of `keys` stands that began in `old`. -/
def Looking (old : FSAdapter) (keys : List ChunkKey) (fs : FSAdapter) : Prop :=
  fs.files = old.files ∧ ∃ todo hits, fs.thread = .lookup todo hits ∧
    hitsOf old.stored? keys = hits + hitsOf old.stored? todo

/-- Where a `load` of `slots` stands that began in `old`. -/
def Loading (old : FSAdapter) (slots : List (ChunkKey × ℕ)) (fs : FSAdapter) : Prop :=
  fs.files = old.files ∧ ∃ todo entries, fs.thread = .load todo entries.length ∧
    fs.filled = old.filled ++ entries ∧
    loadedOf old.stored? slots = entries.map FSFill.data ++ loadedOf old.stored? todo

/-- Where a task stands. -/
def Doing (old : FSAdapter) : FSTask → FSAdapter → Prop
  | .store items, fs => Storing old items fs ∧ fs.thread ≠ .idle
  | .lookup keys, fs => Looking old keys fs
  | .load slots, fs => Loading old slots fs

/-- A task has ended with a result. -/
def Done (old : FSAdapter) (task : FSTask) (r : L2Result) (fs : FSAdapter) : Prop :=
  fs.thread = .idle ∧ Serves old.stored? task (.ok r) fs.stored?

theorem doing_submit (fs : FSAdapter) (task : FSTask) : Doing fs task (fs.submit task) := by
  rcases task with items | keys | slots
  · exact ⟨storing_submit fs items, by rintro ⟨⟩⟩
  · exact ⟨rfl, keys, 0, rfl, (Nat.zero_add _).symm⟩
  · exact ⟨rfl, slots, [], rfl, (List.append_nil _).symm, rfl⟩

theorem Looking.next {keys : List ChunkKey} (h : Looking old keys fs) (hs : fs.next = some fs') :
    Looking old keys fs' ∨ Done old (.lookup keys) (fs.outcome fs') fs' := by
  obtain ⟨hfiles, todo, hits, hthread, hhits⟩ := h
  have hstored : fs.stored? = old.stored? := by
    funext name
    rw [stored?, stored?, hfiles]
  have hdone : ∀ fs'' : FSAdapter, fs''.files = fs.files → fs''.thread = .idle →
      hitsOf old.stored? keys = hits → Done old (.lookup keys) (fs.outcome fs'') fs'' := by
    intro fs'' hsame hidle heq
    have hstored' : fs''.stored? = old.stored? := by
      funext name
      rw [stored?, stored?, hsame, hfiles]
    refine ⟨hidle, ?_⟩
    rw [outcome, hthread, hstored', ← heq]
    exact .lookup keys
  unfold FSAdapter.next at hs
  rw [hthread] at hs
  cases todo with
  | nil =>
    cases hs
    exact Or.inr (hdone _ rfl rfl hhits)
  | cons key todo =>
    dsimp only at hs
    rw [hstored] at hs
    unfold hitsOf at hhits
    split at hs
    · rename_i hnone
      cases hs
      refine Or.inr (hdone _ rfl rfl (hhits.trans ?_))
      rw [List.takeWhile_cons_of_neg (by simp [hnone]), List.length_nil, Nat.add_zero]
    · rename_i data hdata
      cases hs
      refine Or.inl ⟨hfiles, todo, hits + 1, rfl, hhits.trans ?_⟩
      rw [List.takeWhile_cons_of_pos (by simp [hdata]), List.length_cons, hitsOf]
      omega

theorem Loading.next {slots : List (ChunkKey × ℕ)} (h : Loading old slots fs)
    (hs : fs.next = some fs') :
    Loading old slots fs' ∨ Done old (.load slots) (fs.outcome fs') fs' := by
  obtain ⟨hfiles, todo, entries, hthread, hfilled, hloaded⟩ := h
  have hstored : fs.stored? = old.stored? := by
    funext name
    rw [stored?, stored?, hfiles]
  have hdone : ∀ fs'' : FSAdapter, fs''.files = fs.files → fs''.filled = fs.filled →
      fs''.thread = .idle → loadedOf old.stored? slots = entries.map FSFill.data →
      Done old (.load slots) (fs.outcome fs'') fs'' := by
    intro fs'' hsame hsame' hidle heq
    have hstored' : fs''.stored? = old.stored? := by
      funext name
      rw [stored?, stored?, hsame, hfiles]
    refine ⟨hidle, ?_⟩
    rw [outcome, hthread, hstored', hsame', hfilled]
    dsimp only
    rw [List.length_append, Nat.add_sub_cancel, List.drop_left, ← heq]
    exact .load slots
  unfold FSAdapter.next at hs
  rw [hthread] at hs
  cases todo with
  | nil =>
    cases hs
    exact Or.inr (hdone _ rfl rfl rfl (hloaded.trans (List.append_nil _)))
  | cons slot todo =>
    obtain ⟨key, nbytes⟩ := slot
    dsimp only at hs
    rw [hstored] at hs
    split at hs
    · rename_i hnone
      cases hs
      rw [loadedOf_missing todo hnone, List.append_nil] at hloaded
      exact Or.inr (hdone _ rfl rfl rfl hloaded)
    · rename_i data hdata
      split_ifs at hs with hlen
      · cases hs
        rw [loadedOf_short todo hdata hlen, List.append_nil] at hloaded
        exact Or.inr (hdone _ rfl rfl rfl hloaded)
      · cases hs
        rw [loadedOf_full todo hdata hlen] at hloaded
        refine Or.inl ⟨hfiles, todo, entries ++ [⟨key, nbytes, data, data.take nbytes⟩], ?_, ?_, ?_⟩
        · rw [List.length_append, List.length_singleton]
        · rw [hfilled, List.append_assoc]
        · rw [hloaded, List.map_append, List.append_assoc]
          rfl

/-- What an access to the directory does to the task under way. -/
theorem Doing.next {task : FSTask} (h : Doing old task fs) (hs : fs.next = some fs') :
    (fs'.thread ≠ .idle ∧ Doing old task fs') ∨
      (fs'.thread = .idle ∧ Done old task (fs.outcome fs') fs') := by
  rcases task with items | keys | slots
  · obtain ⟨hstoring, hbusy⟩ := h
    have hstoring' := hstoring.next hs
    by_cases hidle : fs'.thread = .idle
    · refine Or.inr ⟨hidle, hidle, ?_⟩
      have hmirrors : fs'.stored? = fun name => (old.stored? name).or (first items name) := by
        funext name
        unfold Storing at hstoring'
        rw [hidle] at hstoring'
        exact hstoring' name
      have hout : fs.outcome fs' = .stored := by
        unfold Storing at hstoring
        unfold outcome
        split <;> rename_i ht
        · rw [ht] at hstoring
          exact hstoring.elim
        · rw [ht] at hstoring
          exact hstoring.elim
        · rfl
      rw [hout, hmirrors]
      exact .store items
    · exact Or.inl ⟨hidle, hstoring', hidle⟩
  · rcases Looking.next h hs with hlooking | hdone
    · obtain ⟨-, todo, hits, hthread, -⟩ := id hlooking
      exact Or.inl ⟨by rw [hthread]; rintro ⟨⟩, hlooking⟩
    · exact Or.inr ⟨hdone.1, hdone⟩
  · rcases Loading.next h hs with hloading | hdone
    · obtain ⟨-, todo, entries, hthread, -⟩ := id hloading
      exact Or.inl ⟨by rw [hthread]; rintro ⟨⟩, hloading⟩
    · exact Or.inr ⟨hdone.1, hdone⟩

theorem Doing.write {task : FSTask} (h : Doing old task fs) {n : ℕ} (hs : fs.write n = some fs') :
    Doing old task fs' := by
  have hbusy : fs'.thread ≠ .idle ∧
      ∃ key blob count todo, fs.thread = .write key blob count todo := by
    unfold FSAdapter.write at hs
    split at hs
    · rename_i ht
      split_ifs at hs
      cases hs
      exact ⟨by rintro ⟨⟩, _, _, _, _, ht⟩
    · cases hs
  obtain ⟨hbusy, key, blob, count, todo, ht⟩ := hbusy
  rcases task with items | keys | slots
  · exact ⟨h.1.write hs, hbusy⟩
  · obtain ⟨-, _, _, hthread, -⟩ := h
    rw [ht] at hthread
    cases hthread
  · obtain ⟨-, _, _, hthread, -⟩ := h
    rw [ht] at hthread
    cases hthread

/-- A task that raises leaves what it had stored. -/
theorem Doing.fail {task : FSTask} (h : Doing old task fs) :
    Serves old.stored? task (.error .adapterError) fs.stored? := by
  rcases task with items | keys | slots
  · obtain ⟨hstoring, hbusy⟩ := h
    have hprefix : ∃ done todo, items = done ++ todo ∧ Mirrors old done fs := by
      unfold Storing at hstoring
      split at hstoring
      · obtain ⟨done, heq, hmirrors⟩ := hstoring
        exact ⟨done, _, heq, hmirrors⟩
      · obtain ⟨done, heq, hmirrors, -⟩ := hstoring
        exact ⟨done, _, heq, hmirrors⟩
      · obtain ⟨done, blob, heq, hmirrors, -⟩ := hstoring
        exact ⟨done, _, heq, hmirrors⟩
      · exact (hbusy ‹_›).elim
      · exact hstoring.elim
    obtain ⟨done, todo, rfl, hmirrors⟩ := hprefix
    have hstored : fs.stored? = fun name =>
        (old.stored? name).or (first ((done ++ todo).take done.length) name) := by
      funext name
      rw [List.take_left' rfl]
      exact hmirrors name
    rw [hstored]
    exact .storeRaised _ _ _
  · have hstored : fs.stored? = old.stored? := by
      funext name
      rw [stored?, stored?, h.1]
    rw [hstored]
    exact .lookupRaised _ _
  · have hstored : fs.stored? = old.stored? := by
      funext name
      rw [stored?, stored?, h.1]
    rw [hstored]
    exact .loadRaised _ _

theorem doing_of_works {task : FSTask} (h : machine.Works (old.submit task) fs) :
    Doing old task fs := by
  induction h with
  | refl => exact doing_submit old task
  | @snoc t t' l _ hstep ih =>
    cases l with
    | next =>
      obtain ⟨t'', hnext, heq⟩ := Option.map_eq_some_iff.mp hstep
      obtain ⟨rfl, hresult⟩ := Prod.mk.inj heq
      rcases ih.next hnext with ⟨-, hdoing⟩ | ⟨hidle, -⟩
      · exact hdoing
      · rw [if_pos hidle] at hresult
        cases hresult
    | write n =>
      obtain ⟨t'', hwrite, heq⟩ := Option.map_eq_some_iff.mp hstep
      cases heq
      exact ih.write hwrite
    | fail =>
      obtain ⟨t'', -, heq⟩ := Option.map_eq_some_iff.mp hstep
      cases heq
    | submit | crash => cases hstep

/-- One task worked on alone : what its future gets is what the files say. -/
theorem serves_of_exec {task : FSTask} {r : Except Exc L2Result}
    (h : machine.Exec old task r fs') :
    fs'.thread = .idle ∧ Serves old.stored? task r fs'.stored? := by
  obtain ⟨fs, l, hworks, hstep⟩ := h
  have hdoing := doing_of_works hworks
  cases l with
  | next =>
    obtain ⟨t, hnext, heq⟩ := Option.map_eq_some_iff.mp hstep
    obtain ⟨rfl, hresult⟩ := Prod.mk.inj heq
    rcases hdoing.next hnext with ⟨hbusy, -⟩ | ⟨hidle, hdone⟩
    · rw [if_neg hbusy] at hresult
      cases hresult
    · rw [if_pos hidle] at hresult
      cases hresult
      exact hdone
  | write n =>
    obtain ⟨t, -, heq⟩ := Option.map_eq_some_iff.mp hstep
    cases heq
  | fail =>
    obtain ⟨t, hfail, heq⟩ := Option.map_eq_some_iff.mp hstep
    cases heq
    unfold FSAdapter.step at hfail
    split_ifs at hfail
    cases hfail
    exact ⟨rfl, hdoing.fail⟩
  | submit | crash => cases hstep

/-! ## What stays found -/

theorem hitsOf_mono {keys : List ChunkKey} (h : Keeps fs fs') :
    hitsOf fs.stored? keys ≤ hitsOf fs'.stored? keys := by
  induction keys with
  | nil => exact Nat.le_refl _
  | cons key keys ih =>
    unfold hitsOf at ih ⊢
    rcases hget : fs.stored? (filename key) with _ | data
    · rw [List.takeWhile_cons_of_neg (by simp [hget])]
      exact Nat.zero_le _
    · rw [List.takeWhile_cons_of_pos (by simp [hget]),
        List.takeWhile_cons_of_pos (by simp [h _ _ hget]), List.length_cons, List.length_cons]
      exact Nat.succ_le_succ ih

theorem loadedOf_mono (h : Keeps fs fs') : ∀ slots : List (ChunkKey × ℕ),
    loadedOf fs.stored? slots <+: loadedOf fs'.stored? slots
  | [] => List.prefix_refl _
  | (key, nbytes) :: slots => by
    rcases hget : fs.stored? (filename key) with _ | data
    · rw [loadedOf_missing slots hget]
      exact List.nil_prefix
    · by_cases hlt : data.length < nbytes
      · rw [loadedOf_short slots hget hlt]
        exact List.nil_prefix
      · rw [loadedOf_full slots hget hlt, loadedOf_full slots (h _ _ hget) hlt]
        exact (List.prefix_cons_inj _).mpr (loadedOf_mono h slots)

/-- A file under its final name is never changed or removed again, whatever tasks, failures and
crashes follow. So a `lookup` counts what an earlier one counted, a `load` fills its slots as an
earlier one would have, and chunks whose `store` returned are counted for ever. -/
theorem write_once {ok : FSAdapter → FSLabel → Prop} {labels : List FSLabel} (h : fs.Reachable)
    (hrun : Run step ok fs labels fs') :
    (∀ name data, fs.stored? name = some data → fs'.stored? name = some data) ∧
    (∀ keys, hitsOf fs.stored? keys ≤ hitsOf fs'.stored? keys) ∧
    (∀ slots, loadedOf fs.stored? slots <+: loadedOf fs'.stored? slots) ∧
    ∀ old items, machine.Exec old (.store items) (.ok .stored) fs →
      ∀ keys, (∀ k ∈ keys, k ∈ items.map Prod.fst) → hitsOf fs'.stored? keys = keys.length := by
  have hkeeps := h.keeps hrun
  refine ⟨hkeeps, fun keys => hitsOf_mono hkeeps, loadedOf_mono hkeeps, ?_⟩
  intro old items hexec keys hkeys
  refine congrArg List.length (List.takeWhile_eq_self_iff.mpr fun key hkey => ?_)
  obtain ⟨p, hp, rfl⟩ := List.mem_map.mp (hkeys key hkey)
  have hserves := (serves_of_exec hexec).2
  obtain ⟨data, hdata⟩ : ∃ data, fs.stored? (filename p.1) = some data := by
    generalize hstored : fs.stored? = files at hserves
    cases hserves
    rw [← Option.isSome_iff_exists, Option.isSome_or, Bool.or_eq_true]
    exact Or.inr (by simpa [first] using ⟨p.1, ⟨p.2, hp⟩, rfl⟩)
  rw [hkeeps _ _ hdata]
  rfl

/-- A chunk is stored and the process dies while it writes another one; the chunk is still found. -/
theorem write_once_sample : ∃ fs fs' : FSAdapter, fs.Reachable ∧
    fs'.stored? (filename ⟨[2], "m", 0⟩) = none ∧
    fs'.stored? (filename ⟨[1], "m", 0⟩) = some [7] ∧
    1 ≤ hitsOf fs'.stored? [⟨[1], "m", 0⟩, ⟨[2], "m", 0⟩] := by
  have hrun : ((replay step (fun _ _ => true) new
      [.submit (.store [(⟨[1], "m", 0⟩, [7])]), .next, .write 1, .next, .next, .next]).bind
        fun fs => (replay step (fun _ _ => true) fs [.submit (.store [(⟨[2], "m", 0⟩, [8, 9])]),
          .next, .write 1, .crash (some [8])]).map fun fs' =>
            (fs.stored? (filename ⟨[1], "m", 0⟩), hitsOf fs.stored? [⟨[1], "m", 0⟩, ⟨[2], "m", 0⟩],
              fs'.stored? (filename ⟨[2], "m", 0⟩))) = some (some [7], 1, none) := by decide
  obtain ⟨fs, hfs, hrun⟩ := Option.bind_eq_some_iff.mp hrun
  obtain ⟨fs', hfs', heq⟩ := Option.map_eq_some_iff.mp hrun
  simp only [Prod.mk.injEq] at heq
  obtain ⟨hstored, hhits, hcut⟩ := heq
  have hreach : fs.Reachable := ⟨_, (run_of_replay hfs).mono fun _ _ _ => trivial⟩
  obtain ⟨hkeeps, hmono, -⟩ := write_once hreach (run_of_replay hfs')
  exact ⟨fs, fs', hreach, hcut, hkeeps _ _ hstored, hhits ▸ hmono _⟩

end FSAdapter

/-! ## The queue of the filesystem adapter -/

/-- The adapter's thread with its queue, over an empty directory. -/
def FSAdapter.Queued (w : SerialWorker FSAdapter FSTask (Except Exc L2Result)) : Prop :=
  ∃ events, Run (SerialWorker.step FSAdapter.machine) (fun _ _ => True)
    (SerialWorker.new FSAdapter.new) events w

/-- `done` are the tasks with a result, in the order of submission, and `files` what they left; the
others have none. -/
structure FSAdapter.Answered (w : SerialWorker FSAdapter FSTask (Except Exc L2Result))
    (done : List (FSTask × Except Exc L2Result)) : Prop where
  submitted : w.submitted = done.map Prod.fst ++ w.left.map Prod.snd
  futures : w.futures = done.map (fun p => some p.2) ++ List.replicate w.left.length none

/-- Whatever threads submit, in whatever order, and whatever the tasks raise : the futures are
resolved in the order of submission, and the result of each is what the files left by the tasks
before it say. In every run that follows they keep their results, and the others are resolved after
them; without further submissions only boundedly many steps are left, and where the worker can do
nothing, but for an exception, all futures are resolved. -/
theorem fs_serial {w : SerialWorker FSAdapter FSTask (Except Exc L2Result)}
    (h : FSAdapter.Queued w) : ∃ (done : List (FSTask × Except Exc L2Result))
      (files : String → Option Bytes),
      InTurn FSAdapter.Serves (fun _ => none) done files ∧ FSAdapter.Answered w done ∧
      (∀ events w', Run (SerialWorker.step FSAdapter.machine) (fun _ _ => True) w events w' →
        ∃ more files', InTurn FSAdapter.Serves files more files' ∧
          FSAdapter.Answered w' (done ++ more)) ∧
      ∃ bound, ∀ events w',
        Run (SerialWorker.step FSAdapter.machine) (fun _ e => e.own = true) w events w' →
        events.length ≤ bound ∧
        ((∀ e, e.own = true → e ≠ .work .fail → w'.step FSAdapter.machine e = none) →
          ∀ f ∈ w'.futures, f.isSome) := by
  obtain ⟨events, hrun⟩ := h
  obtain ⟨done, fs, hw⟩ := SerialWorker.serialized hrun
  have hserves : ∀ {fs tasks fs'}, InTurn FSAdapter.machine.Exec fs tasks fs' →
      InTurn FSAdapter.Serves fs.stored? tasks fs'.stored? := fun hturn =>
    (hturn.simulate (fun _ => True) FSAdapter.stored? trivial fun t task r t' _ hexec =>
      ⟨trivial, (FSAdapter.serves_of_exec hexec).2⟩).2
  refine ⟨done, fs.stored?, hserves hw.exec, ⟨hw.submitted, hw.futures⟩, ?_,
    w.measure FSAdapter.cost FSAdapter.costOf, ?_⟩
  · intro events w' hrun
    obtain ⟨more, fs', hturn, hw'⟩ := hw.run hrun
    exact ⟨more, _, hserves hturn, hw'.submitted, hw'.futures⟩
  · intro events w' hrun
    refine ⟨SerialWorker.length_le_measure FSAdapter.cost_start
      (fun _ _ _ hs => (FSAdapter.step_going hs).1) (fun _ _ ho => ho) hrun, fun hstuck f hf => ?_⟩
    obtain ⟨more, fs', -, hw'⟩ := hw.run hrun
    have hleft : w'.left = [] := by
      by_contra hne
      obtain ⟨e, hown, hfail, he⟩ := hw'.exists_step (P := fun l => l ≠ .fail) hne
        fun _ _ _ hworks => (FSAdapter.going_of_works hworks).exists_step
      refine he (hstuck e hown ?_)
      rintro rfl
      exact hfail _ rfl rfl
    rw [hw'.futures, hleft, List.length_nil, List.replicate_zero, List.append_nil] at hf
    obtain ⟨p, -, rfl⟩ := List.mem_map.mp hf
    rfl

/-- A load that was submitted while the store of its chunk was under way, and is taken after a
lookup that raised. -/
theorem fs_serial_sample : ∃ (w w' : SerialWorker FSAdapter FSTask (Except Exc L2Result))
    (done more : List (FSTask × Except Exc L2Result)),
    w.futures = [some (.ok .stored), some (.error .adapterError), none] ∧
    w'.futures = [some (.ok .stored), some (.error .adapterError), some (.ok (.loaded [[7]]))] ∧
    FSAdapter.Answered w done ∧ FSAdapter.Answered w' (done ++ more) := by
  have hrun : ((replay (SerialWorker.step FSAdapter.machine) (fun _ _ => true)
      (SerialWorker.new FSAdapter.new)
      [.submit (.store [(⟨[1], "m", 0⟩, [7])]), .take, .work .next, .submit (.lookup []),
        .work (.write 1), .submit (.load [(⟨[1], "m", 0⟩, 1)]), .work .next, .work .next,
        .work .next, .take, .work .fail]).bind fun w =>
          (replay (SerialWorker.step FSAdapter.machine) (fun _ _ => true) w
            [.take, .work .next, .work .next]).map fun w' => (w.futures, w'.futures)) =
      some ([some (.ok .stored), some (.error .adapterError), none],
        [some (.ok .stored), some (.error .adapterError), some (.ok (.loaded [[7]]))]) := by
    decide
  obtain ⟨w, hw, hrun⟩ := Option.bind_eq_some_iff.mp hrun
  obtain ⟨w', hw', heq⟩ := Option.map_eq_some_iff.mp hrun
  obtain ⟨hfutures, hfutures'⟩ := Prod.mk.inj heq
  obtain ⟨done, files, -, hall, hlater, -⟩ := fs_serial
    ⟨_, (run_of_replay hw).mono fun _ _ _ => trivial⟩
  obtain ⟨more, files', -, hall'⟩ := hlater _ w' ((run_of_replay hw').mono fun _ _ _ => trivial)
  exact ⟨w, w', done, more, hfutures, hfutures', hall, hall'⟩

/-! ## The in-memory adapter -/

namespace MockAdapter

def store (m : MockAdapter) (items : List (ChunkKey × Bytes)) : MockAdapter :=
  items.foldl (fun m p => ⟨m.chunks.set p.1 p.2⟩) m

def lookup (m : MockAdapter) (keys : List ChunkKey) : ℕ :=
  (keys.takeWhile fun key => (m.chunks.get? key).isSome).length

/-- `load` over slots of these sizes : what they are filled with, unless a chunk does not have the
size of its slot. -/
def loaded (m : MockAdapter) : List (ChunkKey × ℕ) → Except Exc (List Bytes)
  | [] => .ok []
  | (key, nbytes) :: slots =>
    match m.chunks.get? key with
    | none => .ok []
    | some data =>
      if data.length = nbytes then (loaded m slots).map (data :: ·) else .error .valueError

/-- One task of the adapter's thread. -/
def run (m : MockAdapter) : FSTask → MockAdapter × Except Exc L2Result
  | .store items => (m.store items, .ok .stored)
  | .lookup keys => (m, .ok (.hits (m.lookup keys)))
  | .load slots => (m, (m.loaded slots).map .loaded)

/-- The adapter's thread between two `tasks.get()`, with the task it took. -/
def machine : TaskMachine (MockAdapter × Option FSTask) FSTask (Except Exc L2Result) Unit where
  start m task := (m.1, some task)
  step m _ := m.2.map fun task => (((m.1.run task).1, none), some (m.1.run task).2)

variable {m : MockAdapter}

theorem run_of_exec {u u' : MockAdapter × Option FSTask} {task : FSTask} {r : Except Exc L2Result}
    (h : machine.Exec u task r u') : (u'.1, r) = u.1.run task := by
  obtain ⟨t, l, hworks, hstep⟩ := h
  cases hworks with
  | refl =>
    cases hstep
    rfl
  | @snoc t t' l' _ hmid =>
    obtain ⟨task', -, heq⟩ := Option.map_eq_some_iff.mp hmid
    cases heq

theorem get?_store (key : ChunkKey) : ∀ (items : List (ChunkKey × Bytes)) (m : MockAdapter),
    (m.store items).chunks.get? key =
      ((items.reverse.find? fun p => p.1 = key).map Prod.snd).or (m.chunks.get? key)
  | [], _ => rfl
  | p :: items, m => by
    rw [store, List.foldl_cons, ← store, get?_store key items, List.reverse_cons,
      List.find?_append, Option.map_or, Option.or_assoc, OrderedDict.get?_set]
    by_cases h : p.1 = key <;> simp [h]

end MockAdapter

/-! ## The two adapters agree -/

/-- A task over chunks of `K` whose bytes are those of their keys. -/
def FSTask.Addressed (K : Set ChunkKey) (content : ChunkKey → Bytes) : FSTask → Prop
  | .store items => ∀ p ∈ items, p.1 ∈ K ∧ p.2 = content p.1
  | .lookup keys => ∀ key ∈ keys, key ∈ K
  | .load slots => ∀ p ∈ slots, p.1 ∈ K ∧ p.2 = (content p.1).length

/-- The two hold the same chunks of `K`, with the bytes of their keys. -/
def SameChunks (K : Set ChunkKey) (content : ChunkKey → Bytes) (files : String → Option Bytes)
    (m : MockAdapter) : Prop :=
  ∀ key ∈ K, files (filename key) = m.chunks.get? key ∧
    ∀ data, m.chunks.get? key = some data → data = content key

section agreement

variable {K : Set ChunkKey} {content : ChunkKey → Bytes} {files : String → Option Bytes}
  {m : MockAdapter}

/-- The bytes of a stored key are those of the key, whether the first or the last object counts. -/
theorem find?_of_addressed (items : List (ChunkKey × Bytes)) (key : ChunkKey)
    (h : ∀ p ∈ items, p.2 = content p.1) : (items.find? fun p => p.1 = key).map Prod.snd =
      if key ∈ items.map Prod.fst then some (content key) else none := by
  rcases hfind : items.find? fun p => p.1 = key with _ | p
  · rw [hfind, if_neg, Option.map_none]
    intro hmem
    obtain ⟨p, hp, rfl⟩ := List.mem_map.mp hmem
    have hnone := List.find?_eq_none.mp hfind p hp
    simp at hnone
  · have hp := List.mem_of_find?_eq_some hfind
    obtain rfl : p.1 = key := by simpa using List.find?_some hfind
    rw [hfind, if_pos (List.mem_map_of_mem hp), Option.map_some, h p hp]

theorem SameChunks.store (h : SameChunks K content files m) (hK : FSAdapter.Apart K)
    {items : List (ChunkKey × Bytes)} (hitems : ∀ p ∈ items, p.1 ∈ K ∧ p.2 = content p.1) :
    SameChunks K content (fun name => (files name).or (FSAdapter.first items name))
      (m.store items) := by
  intro key hkey
  obtain ⟨hsame, hcontent⟩ := h key hkey
  have hfirst := find?_of_addressed items key fun p hp => (hitems p hp).2
  have hlast := find?_of_addressed items.reverse key
    fun p hp => (hitems p (List.mem_reverse.mp hp)).2
  have hmem : key ∈ items.reverse.map Prod.fst ↔ key ∈ items.map Prod.fst := by
    rw [List.map_reverse, List.mem_reverse]
  simp only [hmem] at hlast
  dsimp only
  rw [hK.first_eq hkey fun p hp => (hitems p hp).1, FSAdapter.under, hfirst,
    MockAdapter.get?_store, hlast, hsame]
  split_ifs with hin
  · rcases hget : m.chunks.get? key with _ | data
    · exact ⟨rfl, fun data hdata => (Option.some.inj hdata).symm⟩
    · rw [hcontent data hget]
      exact ⟨rfl, fun data hdata => (Option.some.inj hdata).symm⟩
  · rw [Option.or_none]
    exact ⟨rfl, hcontent⟩

theorem SameChunks.hitsOf_eq (h : SameChunks K content files m) {keys : List ChunkKey}
    (hkeys : ∀ key ∈ keys, key ∈ K) : FSAdapter.hitsOf files keys = m.lookup keys := by
  induction keys with
  | nil => rfl
  | cons key keys ih =>
    have hsame := (h key (hkeys key List.mem_cons_self)).1
    have ih := ih fun k hk => hkeys k (List.mem_cons_of_mem key hk)
    unfold FSAdapter.hitsOf MockAdapter.lookup at ih ⊢
    rw [List.takeWhile_cons, List.takeWhile_cons, hsame]
    split_ifs
    · rw [List.length_cons, List.length_cons, ih]
    · rfl

theorem SameChunks.loadedOf_eq (h : SameChunks K content files m) :
    ∀ {slots : List (ChunkKey × ℕ)}, (∀ p ∈ slots, p.1 ∈ K ∧ p.2 = (content p.1).length) →
      m.loaded slots = .ok (FSAdapter.loadedOf files slots)
  | [], _ => rfl
  | (key, nbytes) :: slots, hslots => by
    obtain ⟨hkey, hsize⟩ := hslots (key, nbytes) List.mem_cons_self
    obtain ⟨hsame, hcontent⟩ := h key hkey
    have ih := h.loadedOf_eq fun p hp => hslots p (List.mem_cons_of_mem _ hp)
    rcases hget : m.chunks.get? key with _ | data
    · rw [FSAdapter.loadedOf_missing slots (hsame.trans hget), MockAdapter.loaded, hget]
    · have hlen : data.length = nbytes :=
        (congrArg List.length (hcontent data hget)).trans hsize.symm
      rw [FSAdapter.loadedOf_full slots (hsame.trans hget) (by omega), MockAdapter.loaded, hget]
      dsimp only
      rw [if_pos hlen, ih, ← hlen, List.take_length]
      rfl

/-- A task that does not raise has one result on both, and leaves the same chunks. -/
theorem SameChunks.serves (h : SameChunks K content files m) (hK : FSAdapter.Apart K)
    {task : FSTask} (htask : task.Addressed K content) {r : Except Exc L2Result}
    {files' : String → Option Bytes} (hok : ∀ e, r ≠ .error e)
    (hserves : FSAdapter.Serves files task r files') :
    r = (m.run task).2 ∧ SameChunks K content files' (m.run task).1 := by
  cases hserves with
  | store items => exact ⟨rfl, h.store hK htask⟩
  | lookup keys => exact ⟨by rw [h.hitsOf_eq htask]; rfl, h⟩
  | load slots =>
    refine ⟨?_, h⟩
    rw [MockAdapter.run, h.loadedOf_eq htask]
    rfl
  | storeRaised | lookupRaised | loadRaised => exact (hok _ rfl).elim

end agreement

/-- Only such tasks are submitted. -/
def Submits {ℓ : Type} (K : Set ChunkKey) (content : ChunkKey → Bytes) :
    WorkerEvent FSTask ℓ → Prop
  | .submit task => task.Addressed K content
  | _ => True

/-- When the bytes of a chunk are a function of its key, the filesystem adapter and the in-memory
adapter cannot be told apart : in any two runs in which the filesystem raises nothing, a task has
the same result on both if the same tasks were submitted up to it. -/
theorem fs_eq_mock {K : Set ChunkKey} (hK : FSAdapter.Apart K) (content : ChunkKey → Bytes)
    {w : SerialWorker FSAdapter FSTask (Except Exc L2Result)}
    {v : SerialWorker (MockAdapter × Option FSTask) FSTask (Except Exc L2Result)}
    {events : List (WorkerEvent FSTask FSLabel)} {events' : List (WorkerEvent FSTask Unit)}
    (hw : Run (SerialWorker.step FSAdapter.machine) (fun _ e => Submits K content e)
      (SerialWorker.new FSAdapter.new) events w)
    (hv : Run (SerialWorker.step MockAdapter.machine) (fun _ e => Submits K content e)
      (SerialWorker.new (⟨.empty⟩, none)) events' v)
    (hok : ∀ (i : ℕ) e, w.futures[i]? ≠ some (some (.error e)))
    {i : ℕ} {r r' : Except Exc L2Result}
    (hsame : w.submitted.take (i + 1) = v.submitted.take (i + 1))
    (hr : w.futures[i]? = some (some r)) (hr' : v.futures[i]? = some (some r')) : r = r' := by
  have haddressed := SerialWorker.submitted_of_run (P := fun task => task.Addressed K content) hw
    fun _ _ h => h
  refine SerialWorker.agree (fun fs u => SameChunks K content fs.stored? u.1)
    (fun task r => task.Addressed K content ∧ ∀ e, r ≠ .error e) hw hv ?_ ?_ ?_ hsame hr hr'
  · intro j task r hsub hr
    refine ⟨haddressed task (List.mem_of_getElem? hsub), ?_⟩
    rintro e rfl
    exact hok j e hr
  · exact fun key _ => ⟨rfl, by rintro _ ⟨⟩⟩
  · rintro fs u task r r' fs' u' ⟨htask, hne⟩ hE hexec hexec'
    have hrun := MockAdapter.run_of_exec hexec'
    obtain ⟨hres, hchunks⟩ := SameChunks.serves hE hK htask hne (FSAdapter.serves_of_exec hexec).2
    rw [← hrun] at hres hchunks
    exact ⟨hres, hchunks⟩

/-- Two stores of a chunk and a load of it, on both. -/
theorem fs_eq_mock_sample :
    ∃ (w : SerialWorker FSAdapter FSTask (Except Exc L2Result))
      (v : SerialWorker (MockAdapter × Option FSTask) FSTask (Except Exc L2Result)) (r r' : _),
      w.futures[2]? = some (some r) ∧ v.futures[2]? = some (some r') ∧
      r = .ok (.loaded [[7]]) ∧ r = r' := by
  have hw : (replay (SerialWorker.step FSAdapter.machine) (fun _ _ => true)
      (SerialWorker.new FSAdapter.new)
      [.submit (.store [(⟨[1], "m", 0⟩, [7])]), .take, .work .next, .work (.write 1), .work .next,
        .work .next, .work .next, .submit (.store [(⟨[1], "m", 0⟩, [7])]), .take, .work .next,
        .work .next, .submit (.load [(⟨[1], "m", 0⟩, 1)]), .take, .work .next, .work .next]).map
          (fun w => (w.futures, w.submitted)) =
      some ([some (.ok .stored), some (.ok .stored), some (.ok (.loaded [[7]]))],
        [.store [(⟨[1], "m", 0⟩, [7])], .store [(⟨[1], "m", 0⟩, [7])],
          .load [(⟨[1], "m", 0⟩, 1)]]) := by decide
  have hv : (replay (SerialWorker.step MockAdapter.machine) (fun _ _ => true)
      (SerialWorker.new (⟨.empty⟩, none))
      [.submit (.store [(⟨[1], "m", 0⟩, [7])]), .submit (.store [(⟨[1], "m", 0⟩, [7])]),
        .submit (.load [(⟨[1], "m", 0⟩, 1)]), .take, .work (), .take, .work (), .take,
        .work ()]).map (fun v => (v.submitted, v.futures[2]?)) =
      some ([.store [(⟨[1], "m", 0⟩, [7])], .store [(⟨[1], "m", 0⟩, [7])],
          .load [(⟨[1], "m", 0⟩, 1)]], some (some (.ok (.loaded [[7]])))) := by decide
  obtain ⟨w, hrunw, heqw⟩ := Option.map_eq_some_iff.mp hw
  obtain ⟨hfutures, hsubmitted⟩ := Prod.mk.inj heqw
  obtain ⟨v, hrunv, heqv⟩ := Option.map_eq_some_iff.mp hv
  obtain ⟨hsubmitted', hfuture'⟩ := Prod.mk.inj heqv
  let K : Set ChunkKey := {⟨[1], "m", 0⟩}
  have hK : FSAdapter.Apart K := by
    rintro k rfl k' rfl - - -
    rfl
  have hokw := ((run_of_replay hrunw).and_label (P := Submits K fun _ => [7])
    (by simp [Submits, FSTask.Addressed, K])).mono fun _ _ h => h.1
  have hokv := ((run_of_replay hrunv).and_label (P := Submits K fun _ => [7])
    (by simp [Submits, FSTask.Addressed, K])).mono fun _ _ h => h.1
  have hr : w.futures[2]? = some (some (.ok (.loaded [[7]]))) := by rw [hfutures]; rfl
  refine ⟨w, v, _, _, hr, hfuture', rfl, ?_⟩
  refine fs_eq_mock hK (fun _ => [7]) hokw hokv (fun i e hi => ?_) ?_ hr hfuture'
  · rw [hfutures] at hi
    rcases i with _ | _ | _ | i <;> simp at hi
  · rw [hsubmitted, hsubmitted']

end MiniLlmcache
