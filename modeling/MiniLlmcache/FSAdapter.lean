import MiniLlmcache.Protocol
import MiniLlmcache.Runs

/-!
# The filesystem adapter, and crashes

`l2/fs.py`. One file for each chunk : the bytes are written to a temp file, which is then renamed
to the final name. The worker thread makes one access to the directory at a time, and the process
may die between any two, or in the middle of writing a temp file, whose contents are then
anything. It starts again over the directory it left.

Three ghosts are written and never read : `given` lists the objects handed to `store` under their
file names, `counted` the files a `lookup` counted, `filled` the slots a `load` counted.
-/

namespace MiniLlmcache

/-- `bytes.hex()`. -/
def hex (bytes : Bytes) : List Char :=
  bytes.flatMap fun b => [Nat.digitChar (b.toNat / 16), Nat.digitChar (b.toNat % 16)]

/-- `model@rank@hash.data`. -/
def filename (key : ChunkKey) : String :=
  String.ofList ((key.model.toList.map fun c => if c = '/' then '-' else c) ++ '@' ::
    Nat.toDigits 16 key.rank ++ '@' :: hex key.chunkHash) ++ ".data"

/-- A file under `base_path` : a chunk, or a temp file under `tmp`. -/
inductive Path
  | final (name : String)
  | tmp (name : String)
deriving DecidableEq

/-- A call of the adapter, with the objects of a `store` and the slot sizes of a `load`. -/
inductive FSTask
  | store (items : List (ChunkKey × Bytes))
  | lookup (keys : List ChunkKey)
  | load (slots : List (ChunkKey × ℕ))
deriving DecidableEq

/-- Where the adapter's thread stands. -/
inductive FSThread
  | idle
  /-- The loop of `store`, before `final.exists()`. -/
  | store (todo : List (ChunkKey × Bytes))
  /-- `tmp.write_bytes`, with the number of bytes written. -/
  | write (key : ChunkKey) (blob : Bytes) (count : ℕ) (todo : List (ChunkKey × Bytes))
  /-- `os.replace(tmp, final)`. -/
  | replace (key : ChunkKey) (todo : List (ChunkKey × Bytes))
  | lookup (todo : List ChunkKey) (hits : ℕ)
  | load (todo : List (ChunkKey × ℕ)) (loaded : ℕ)
deriving DecidableEq

/-- A slot that a `load` counted : its size, what the file held, and what the slot got. -/
structure FSFill where
  key : ChunkKey
  nbytes : ℕ
  file : Bytes
  data : Bytes
deriving DecidableEq

/-- The file was one that was given, and filled the slot. -/
structure FSFill.Whole (p : FSFill) (given : List (String × Bytes)) : Prop where
  given : (filename p.key, p.file) ∈ given
  data : p.data = p.file.take p.nbytes
  length : p.data.length = p.nbytes

structure FSAdapter where
  files : OrderedDict Path Bytes
  thread : FSThread
  /-- What the last `lookup` or `load` returned. -/
  result : Option ℕ
  given : List (String × Bytes)
  counted : List (ChunkKey × Bytes)
  filled : List FSFill
deriving DecidableEq

/-- What happens next to the adapter. -/
inductive FSLabel
  /-- The thread takes a task. -/
  | submit (task : FSTask)
  /-- The next access to the directory. -/
  | next
  /-- `n` more bytes of the temp file. -/
  | write (n : ℕ)
  /-- The call raises. -/
  | fail
  /-- The process dies, and starts again; `left` is what a temp file that was being written
  holds then, if it is there. -/
  | crash (left : Option Bytes)
deriving DecidableEq

namespace FSAdapter

/-- An adapter over an empty directory. -/
def new : FSAdapter := ⟨.empty, .idle, none, [], [], []⟩

/-- Bytes of the file under its final name. -/
def stored? (fs : FSAdapter) (name : String) : Option Bytes := fs.files.get? (.final name)

def submit (fs : FSAdapter) : FSTask → FSAdapter
  | .store items =>
    { fs with
      thread := .store items
      result := none
      given := fs.given ++ items.map fun p => (filename p.1, p.2) }
  | .lookup keys => { fs with thread := .lookup keys 0, result := none }
  | .load slots => { fs with thread := .load slots 0, result := none }

/-- The next access of the thread, with nothing while it writes or has no task. -/
def next (fs : FSAdapter) : Option FSAdapter :=
  match fs.thread with
  | .idle => none
  | .store [] => some { fs with thread := .idle }
  | .store ((key, blob) :: todo) =>
    if fs.files.contains (.final (filename key)) then some { fs with thread := .store todo }
    else some { fs with
      files := fs.files.set (.tmp (filename key)) []
      thread := .write key blob 0 todo }
  | .write key blob count todo =>
    if count = blob.length then some { fs with thread := .replace key todo } else none
  | .replace key todo =>
    match fs.files.get? (.tmp (filename key)) with
    | none => some { fs with thread := .idle }
    | some data => some { fs with
        files := (fs.files.erase (.tmp (filename key))).set (.final (filename key)) data
        thread := .store todo }
  | .lookup [] hits => some { fs with thread := .idle, result := some hits }
  | .lookup (key :: todo) hits =>
    match fs.stored? (filename key) with
    | none => some { fs with thread := .idle, result := some hits }
    | some data => some { fs with
        thread := .lookup todo (hits + 1)
        counted := fs.counted ++ [(key, data)] }
  | .load [] loaded => some { fs with thread := .idle, result := some loaded }
  | .load ((key, nbytes) :: todo) loaded =>
    match fs.stored? (filename key) with
    | none => some { fs with thread := .idle, result := some loaded }
    | some data =>
      -- `f.readinto(obj.byte_array) != obj.nbytes`
      if data.length < nbytes then some { fs with thread := .idle, result := some loaded }
      else some { fs with
        thread := .load todo (loaded + 1)
        filled := fs.filled ++ [⟨key, nbytes, data, data.take nbytes⟩] }

/-- `n` more bytes of the temp file. -/
def write (fs : FSAdapter) (n : ℕ) : Option FSAdapter :=
  match fs.thread with
  | .write key blob count todo =>
    if 0 < n ∧ count + n ≤ blob.length then some { fs with
      files := fs.files.set (.tmp (filename key)) (blob.take (count + n))
      thread := .write key blob (count + n) todo }
    else none
  | _ => none

/-- The files after a crash. -/
def leave (fs : FSAdapter) (left : Option Bytes) : OrderedDict Path Bytes :=
  match fs.thread, left with
  | .write key _ _ _, some data => fs.files.set (.tmp (filename key)) data
  | .write key _ _ _, none => fs.files.erase (.tmp (filename key))
  | _, _ => fs.files

def step (fs : FSAdapter) : FSLabel → Option FSAdapter
  | .submit task => if fs.thread = .idle then some (fs.submit task) else none
  | .next => fs.next
  | .write n => fs.write n
  | .fail => if fs.thread = .idle then none else some { fs with thread := .idle }
  | .crash left => some { fs with files := fs.leave left, thread := .idle, result := none }

variable {fs fs' : FSAdapter}

/-- A thread with a task can make its next access, unless bytes are left to write. -/
theorem exists_next (hidle : fs.thread ≠ .idle)
    (hwritten : ∀ key blob count todo, fs.thread = .write key blob count todo →
      count = blob.length) : ∃ fs', fs.next = some fs' := by
  unfold FSAdapter.next
  cases ht : fs.thread with
  | idle => exact (hidle ht).elim
  | store todo =>
    cases todo with
    | nil => exact ⟨_, rfl⟩
    | cons item todo =>
      dsimp only
      split_ifs <;> exact ⟨_, rfl⟩
  | write key blob count todo =>
    dsimp only
    rw [if_pos (hwritten _ _ _ _ ht)]
    exact ⟨_, rfl⟩
  | replace key todo =>
    dsimp only
    split <;> exact ⟨_, rfl⟩
  | lookup todo hits =>
    cases todo with
    | nil => exact ⟨_, rfl⟩
    | cons key todo =>
      dsimp only
      split <;> exact ⟨_, rfl⟩
  | load todo loaded =>
    cases todo with
    | nil => exact ⟨_, rfl⟩
    | cons slot todo =>
      dsimp only
      split
      · exact ⟨_, rfl⟩
      · split_ifs <;> exact ⟨_, rfl⟩

/-! ## Final names -/

theorem get?_set_tmp (files : OrderedDict Path Bytes) (name n : String) (data : Bytes) :
    (files.set (.tmp n) data).get? (.final name) = files.get? (.final name) :=
  OrderedDict.get?_set_ne _ _ (by simp)

theorem get?_erase_tmp (files : OrderedDict Path Bytes) (name n : String) :
    (files.erase (.tmp n)).get? (.final name) = files.get? (.final name) :=
  OrderedDict.get?_erase_ne _ (by simp)

/-- A crash leaves the files under their final names alone. -/
theorem get?_leave (fs : FSAdapter) (left : Option Bytes) (name : String) :
    (fs.leave left).get? (.final name) = fs.stored? name := by
  unfold leave
  split
  · exact get?_set_tmp _ _ _ _
  · exact get?_erase_tmp _ _ _
  · rfl

/-- The rename gives one final name the bytes of its temp file. -/
theorem get?_replace (files : OrderedDict Path Bytes) (name n : String) (data : Bytes) :
    ((files.erase (.tmp n)).set (.final n) data).get? (.final name) =
      if n = name then some data else files.get? (.final name) := by
  rw [OrderedDict.get?_set, get?_erase_tmp]
  simp

/-- The objects still to store were given. -/
def Given (fs : FSAdapter) (todo : List (ChunkKey × Bytes)) : Prop :=
  ∀ p ∈ todo, (filename p.1, p.2) ∈ fs.given

/-- What the thread of a `store` has ready : the bytes written so far, and before the rename all
of them. -/
def Ready (fs : FSAdapter) : Prop :=
  match fs.thread with
  | .store todo => fs.Given todo
  | .write key blob count todo => fs.Given ((key, blob) :: todo) ∧
    fs.files.get? (.tmp (filename key)) = some (blob.take count)
  | .replace key todo => fs.Given todo ∧
    ∃ blob, fs.files.get? (.tmp (filename key)) = some blob ∧ (filename key, blob) ∈ fs.given
  | _ => True

/-- Every file under its final name is complete, and so is what lookups and loads took from it. -/
structure Inv (fs : FSAdapter) : Prop where
  complete : ∀ name data, fs.stored? name = some data → (name, data) ∈ fs.given
  ready : fs.Ready
  counted : ∀ p ∈ fs.counted, (filename p.1, p.2) ∈ fs.given
  filled : ∀ p ∈ fs.filled, p.Whole fs.given

theorem inv_new : new.Inv where
  complete name data h := by simp [stored?, new] at h
  ready := trivial
  counted p h := by simp [new] at h
  filled p h := by simp [new] at h

theorem Inv.submit (h : fs.Inv) (task : FSTask) : (fs.submit task).Inv := by
  rcases task with items | keys | slots
  · refine ⟨fun name data hget => List.mem_append_left _ (h.complete name data hget), ?_,
      fun p hp => List.mem_append_left _ (h.counted p hp), fun p hp => ?_⟩
    · exact fun p hp => List.mem_append_right _ (List.mem_map.mpr ⟨p, hp, rfl⟩)
    · obtain ⟨hgiven, hdata, hlen⟩ := h.filled p hp
      exact ⟨List.mem_append_left _ hgiven, hdata, hlen⟩
  · exact ⟨h.complete, trivial, h.counted, h.filled⟩
  · exact ⟨h.complete, trivial, h.counted, h.filled⟩

theorem Inv.next (h : fs.Inv) (hs : fs.next = some fs') : fs'.Inv := by
  have hready := h.ready
  unfold FSAdapter.next at hs
  unfold Ready at hready
  split at hs <;> rename_i ht <;> rw [ht] at hready
  · simp at hs
  · obtain rfl := Option.some.inj hs
    exact ⟨h.complete, trivial, h.counted, h.filled⟩
  · rename_i key blob todo
    split_ifs at hs
    · obtain rfl := Option.some.inj hs
      exact ⟨h.complete, fun p hp => hready p (List.mem_cons_of_mem _ hp), h.counted, h.filled⟩
    · obtain rfl := Option.some.inj hs
      refine ⟨fun name data hget => h.complete name data ?_, ⟨hready, ?_⟩, h.counted, h.filled⟩
      · rwa [stored?, get?_set_tmp] at hget
      · simp
  · rename_i key blob count todo
    split_ifs at hs with hcount
    obtain rfl := Option.some.inj hs
    obtain ⟨hgiven, hdata⟩ := hready
    refine ⟨h.complete, ⟨fun p hp => hgiven p (List.mem_cons_of_mem _ hp), blob, ?_, ?_⟩,
      h.counted, h.filled⟩
    · simpa [hcount] using hdata
    · exact hgiven (key, blob) List.mem_cons_self
  · rename_i key todo
    obtain ⟨hgiven, blob, hdata, hblob⟩ := hready
    rw [hdata] at hs
    obtain rfl := Option.some.inj hs
    refine ⟨fun name data hget => ?_, hgiven, h.counted, h.filled⟩
    rw [stored?, get?_replace] at hget
    split_ifs at hget with hname
    · obtain rfl := Option.some.inj hget
      exact hname ▸ hblob
    · exact h.complete name data hget
  · obtain rfl := Option.some.inj hs
    exact ⟨h.complete, trivial, h.counted, h.filled⟩
  · rename_i key todo hits
    split at hs
    · obtain rfl := Option.some.inj hs
      exact ⟨h.complete, trivial, h.counted, h.filled⟩
    · rename_i data hdata
      obtain rfl := Option.some.inj hs
      refine ⟨h.complete, trivial, fun p hp => ?_, h.filled⟩
      rcases List.mem_append.mp hp with hp | hp
      · exact h.counted p hp
      · obtain rfl := List.mem_singleton.mp hp
        exact h.complete _ _ hdata
  · obtain rfl := Option.some.inj hs
    exact ⟨h.complete, trivial, h.counted, h.filled⟩
  · rename_i key nbytes todo loaded
    split at hs
    · obtain rfl := Option.some.inj hs
      exact ⟨h.complete, trivial, h.counted, h.filled⟩
    · rename_i data hdata
      split_ifs at hs with hlen
      · obtain rfl := Option.some.inj hs
        exact ⟨h.complete, trivial, h.counted, h.filled⟩
      · obtain rfl := Option.some.inj hs
        refine ⟨h.complete, trivial, h.counted, fun p hp => ?_⟩
        rcases List.mem_append.mp hp with hp | hp
        · exact h.filled p hp
        · obtain rfl := List.mem_singleton.mp hp
          exact ⟨h.complete _ _ hdata, rfl, List.length_take_of_le (Nat.not_lt.mp hlen)⟩

theorem Inv.write (h : fs.Inv) {n : ℕ} (hs : fs.write n = some fs') : fs'.Inv := by
  have hready := h.ready
  unfold FSAdapter.write at hs
  unfold Ready at hready
  split at hs
  · rename_i ht
    rw [ht] at hready
    split_ifs at hs
    obtain rfl := Option.some.inj hs
    refine ⟨fun name data hget => h.complete name data ?_, ⟨hready.1, ?_⟩, h.counted, h.filled⟩
    · rwa [stored?, get?_set_tmp] at hget
    · simp
  · simp at hs

/-- What is complete stays so in every step, a crash at any point included. -/
theorem Inv.step {l : FSLabel} (h : fs.Inv) (hs : fs.step l = some fs') : fs'.Inv := by
  rcases l with task | _ | n | _ | left
  · unfold FSAdapter.step at hs
    split_ifs at hs
    exact Option.some.inj hs ▸ h.submit task
  · exact h.next hs
  · exact h.write hs
  · unfold FSAdapter.step at hs
    split_ifs at hs
    exact Option.some.inj hs ▸ ⟨h.complete, trivial, h.counted, h.filled⟩
  · obtain rfl := Option.some.inj hs
    refine ⟨fun name data hget => h.complete name data ?_, trivial, h.counted, h.filled⟩
    rwa [stored?, get?_leave] at hget

/-- A state that some run reaches from an empty directory, with crashes at any points. -/
def Reachable (fs : FSAdapter) : Prop := ∃ labels, Run step (fun _ _ => True) new labels fs

theorem Reachable.inv (h : fs.Reachable) : fs.Inv := by
  obtain ⟨labels, hrun⟩ := h
  exact hrun.invariant Inv inv_new fun _ _ _ hi _ hs => hi.step hs

/-! ## A store that is not cut -/

/-- Steps of the thread on its own. -/
def Uncut (_ : FSAdapter) : FSLabel → Prop
  | .next | .write _ => True
  | _ => False

/-- The first object given for a file name. -/
def first (items : List (ChunkKey × Bytes)) (name : String) : Option Bytes :=
  (items.find? fun p => filename p.1 = name).map Prod.snd

theorem first_append (items : List (ChunkKey × Bytes)) (key : ChunkKey) (blob : Bytes)
    (name : String) : first (items ++ [(key, blob)]) name =
      (first items name).or (if filename key = name then some blob else none) := by
  unfold first
  rw [List.find?_append, Option.map_or]
  congr 1
  by_cases h : filename key = name <;> simp [h]

/-- The directory holds what it held in `old`, and the objects of `items` where it had none. -/
def Mirrors (old : FSAdapter) (items : List (ChunkKey × Bytes)) (fs : FSAdapter) : Prop :=
  ∀ name, fs.stored? name = (old.stored? name).or (first items name)

variable {old : FSAdapter} {items todo : List (ChunkKey × Bytes)} {key : ChunkKey} {blob : Bytes}

/-- A file that is there is skipped. -/
theorem Mirrors.skip (h : Mirrors old items fs) (hthere : fs.files.contains (.final (filename key)))
    (hfiles : fs'.files = fs.files) : Mirrors old (items ++ [(key, blob)]) fs' := by
  intro name
  rw [first_append, ← Option.or_assoc, ← h, stored?, hfiles]
  split_ifs with hname
  · obtain ⟨data, hdata⟩ := Option.isSome_iff_exists.mp hthere
    rw [stored?, ← hname, hdata]
    rfl
  · rw [Option.or_none]
    rfl

/-- A file that is not there gets the bytes of the object. -/
theorem Mirrors.replace (h : Mirrors old items fs) (hnone : fs.stored? (filename key) = none)
    (hfiles : fs'.files =
      (fs.files.erase (.tmp (filename key))).set (.final (filename key)) blob) :
    Mirrors old (items ++ [(key, blob)]) fs' := by
  intro name
  rw [first_append, ← Option.or_assoc, ← h, stored?, hfiles, get?_replace]
  split_ifs with hname
  · rw [← hname, hnone]
    rfl
  · rw [Option.or_none]
    rfl

/-- Where a `store` of `items` stands that began in `old`. -/
def Storing (old : FSAdapter) (items : List (ChunkKey × Bytes)) (fs : FSAdapter) : Prop :=
  match fs.thread with
  | .store todo => ∃ done, items = done ++ todo ∧ Mirrors old done fs
  | .write key blob count todo => ∃ done, items = done ++ (key, blob) :: todo ∧
    Mirrors old done fs ∧ fs.stored? (filename key) = none ∧
    fs.files.get? (.tmp (filename key)) = some (blob.take count)
  | .replace key todo => ∃ done blob, items = done ++ (key, blob) :: todo ∧
    Mirrors old done fs ∧ fs.stored? (filename key) = none ∧
    fs.files.get? (.tmp (filename key)) = some blob
  | .idle => Mirrors old items fs
  | _ => False

theorem storing_submit (fs : FSAdapter) (items : List (ChunkKey × Bytes)) :
    Storing fs items (fs.submit (.store items)) :=
  ⟨[], rfl, fun name => by simp [first, stored?, submit]⟩

theorem Storing.next (h : Storing old items fs) (hs : fs.next = some fs') :
    Storing old items fs' := by
  unfold FSAdapter.next at hs
  unfold Storing at h
  split at hs <;> rename_i ht <;> rw [ht] at h
  · simp at hs
  · obtain rfl := Option.some.inj hs
    obtain ⟨done, rfl, hmirrors⟩ := h
    rw [List.append_nil]
    exact hmirrors
  · rename_i key blob todo
    obtain ⟨done, rfl, hmirrors⟩ := h
    split_ifs at hs with hthere
    · obtain rfl := Option.some.inj hs
      exact ⟨done ++ [(key, blob)], by simp, hmirrors.skip hthere rfl⟩
    · obtain rfl := Option.some.inj hs
      have hnone : fs.stored? (filename key) = none := by
        simpa [OrderedDict.contains, stored?] using hthere
      refine ⟨done, rfl, fun name => ?_, ?_, by simp⟩
      · rw [stored?, get?_set_tmp]
        exact hmirrors name
      · rw [stored?, get?_set_tmp]
        exact hnone
  · rename_i key blob count todo
    split_ifs at hs with hcount
    obtain rfl := Option.some.inj hs
    obtain ⟨done, rfl, hmirrors, hnone, hdata⟩ := h
    exact ⟨done, blob, rfl, hmirrors, hnone, by simpa [hcount] using hdata⟩
  · rename_i key todo
    obtain ⟨done, blob, rfl, hmirrors, hnone, hdata⟩ := h
    rw [hdata] at hs
    obtain rfl := Option.some.inj hs
    exact ⟨done ++ [(key, blob)], by simp, hmirrors.replace hnone rfl⟩
  all_goals exact h.elim

theorem Storing.write (h : Storing old items fs) {n : ℕ} (hs : fs.write n = some fs') :
    Storing old items fs' := by
  unfold FSAdapter.write at hs
  unfold Storing at h
  split at hs
  · rename_i ht
    rw [ht] at h
    split_ifs at hs
    obtain rfl := Option.some.inj hs
    obtain ⟨done, rfl, hmirrors, hnone, -⟩ := h
    refine ⟨done, rfl, fun name => ?_, ?_, by simp⟩
    · rw [stored?, get?_set_tmp]
      exact hmirrors name
    · rw [stored?, get?_set_tmp]
      exact hnone
  · simp at hs

/-- A `store` that is not cut leaves every object in a file, whatever temp files it found. -/
theorem Storing.run {labels : List FSLabel}
    (hrun : Run step Uncut (old.submit (.store items)) labels
    fs) : Storing old items fs := by
  refine hrun.invariant (Storing old items) (storing_submit old items) fun _ l _ hi hok hs => ?_
  rcases l with task | _ | n | _ | left
  · exact hok.elim
  · exact hi.next hs
  · exact hi.write hs
  · exact hok.elim
  · exact hok.elim

theorem uncut_next {t : FSAdapter} {labels : List FSLabel} (hs : fs.next = some fs')
    (h : Run step Uncut fs' labels t) : Run step Uncut fs (.next :: labels) t :=
  .cons (l := .next) trivial hs h

theorem uncut_write {t : FSAdapter} {labels : List FSLabel} {n : ℕ} (hs : fs.write n = some fs')
    (h : Run step Uncut fs' labels t) : Run step Uncut fs (.write n :: labels) t :=
  .cons (l := .write n) trivial hs h

/-- All bytes in one go. -/
theorem write_all (ht : fs.thread = .write key blob 0 todo) (hpos : 0 < blob.length) :
    fs.write blob.length = some { fs with
      files := fs.files.set (.tmp (filename key)) blob
      thread := .write key blob blob.length todo } := by
  simp [FSAdapter.write, ht, hpos]

/-- The thread can always go on to the end of its `store`. -/
theorem exists_uncut : ∀ (todo : List (ChunkKey × Bytes)) {fs : FSAdapter},
    fs.thread = .store todo → ∃ labels fs', Run step Uncut fs labels fs' ∧ fs'.thread = .idle
  | [], fs, ht => by
    have hs : fs.next = some { fs with thread := .idle } := by simp only [FSAdapter.next, ht]
    exact ⟨_, _, uncut_next hs .refl, rfl⟩
  | (key, blob) :: todo, fs, ht => by
    by_cases hthere : fs.files.contains (.final (filename key))
    · have hs : fs.next = some { fs with thread := .store todo } := by
        simp only [FSAdapter.next, ht, if_pos hthere]
      have hthread : ({ fs with thread := .store todo } : FSAdapter).thread = .store todo := rfl
      obtain ⟨labels, fs', hrun, hidle⟩ := exists_uncut todo hthread
      exact ⟨_, fs', uncut_next hs hrun, hidle⟩
    · have hopen : fs.next = some { fs with
          files := fs.files.set (.tmp (filename key)) []
          thread := .write key blob 0 todo } := by
        simp only [FSAdapter.next, ht, if_neg hthere]
      -- the whole blob in one go, or nothing for an empty one
      obtain ⟨labels, fs₁, hrun₁, ht₁, hdata⟩ : ∃ labels fs₁, Run step Uncut fs labels fs₁ ∧
          fs₁.thread = .write key blob blob.length todo ∧
          fs₁.files.get? (.tmp (filename key)) = some blob := by
        rcases Nat.eq_zero_or_pos blob.length with hzero | hpos
        · obtain rfl := List.length_eq_zero_iff.mp hzero
          exact ⟨_, _, uncut_next hopen .refl, rfl, by simp⟩
        · exact ⟨_, _, uncut_next hopen (uncut_write (write_all rfl hpos) .refl), rfl, by simp⟩
      have hclose : fs₁.next = some { fs₁ with thread := .replace key todo } := by
        simp only [FSAdapter.next, ht₁, if_true]
      let fs₂ : FSAdapter := { fs₁ with
        files := (fs₁.files.erase (.tmp (filename key))).set (.final (filename key)) blob
        thread := .store todo }
      have hrename : ({ fs₁ with thread := .replace key todo } : FSAdapter).next = some fs₂ := by
        simp only [FSAdapter.next, hdata, fs₂]
      have ht₂ : fs₂.thread = .store todo := rfl
      obtain ⟨labels', fs', hrun, hidle⟩ := exists_uncut todo ht₂
      exact ⟨_, fs', hrun₁.trans (uncut_next hclose (uncut_next hrename hrun)), hidle⟩

/-- A `store` that went to its end has a file for every object. -/
theorem stored?_of_uncut {labels : List FSLabel}
    (hrun : Run step Uncut (fs.submit (.store items)) labels fs') (hidle : fs'.thread = .idle)
    (name : String) : fs'.stored? name = (fs.stored? name).or (first items name) := by
  have hstoring := Storing.run hrun
  unfold Storing at hstoring
  rw [hidle] at hstoring
  exact hstoring name

/-- Crash safety : after any tasks and crashes, every file under its final name has the complete
bytes of an object given to `store` for that name, and so had what lookups counted and loads read;
a slot that a load counted got as many of them as it has room for. A `store` that starts now can go
to its end, and if it does, every object has a file, whatever the crashes left behind. -/
theorem crash_safe (h : fs.Reachable) :
    (∀ name data, fs.stored? name = some data → (name, data) ∈ fs.given) ∧
    (∀ p ∈ fs.counted, (filename p.1, p.2) ∈ fs.given) ∧
    (∀ p ∈ fs.filled, (filename p.key, p.file) ∈ fs.given ∧ p.data = p.file.take p.nbytes ∧
      p.data.length = p.nbytes) ∧
    ∀ items, (∃ labels fs', Run step Uncut (fs.submit (.store items)) labels fs' ∧
        fs'.thread = .idle) ∧
      ∀ labels fs', Run step Uncut (fs.submit (.store items)) labels fs' → fs'.thread = .idle →
        ∀ name, fs'.stored? name = (fs.stored? name).or (first items name) := by
  have hinv := h.inv
  refine ⟨hinv.complete, hinv.counted, fun p hp => ?_, fun items => ⟨exists_uncut items rfl, ?_⟩⟩
  · exact ⟨(hinv.filled p hp).given, (hinv.filled p hp).data, (hinv.filled p hp).length⟩
  · exact fun labels fs' hrun hidle name => stored?_of_uncut hrun hidle name

/-- A store is cut while it writes; the temp file it leaves is garbage, the next store of the chunk
takes the same name, and a load reads the chunk into a slot of its size. -/
theorem crash_safe_sample : ∃ fs : FSAdapter, fs.Reachable ∧
    fs.filled = [⟨⟨[171], "m/n", 1⟩, 3, [1, 2, 3], [1, 2, 3]⟩] ∧
    ∀ p ∈ fs.filled, (filename p.key, p.file) ∈ fs.given ∧ p.data = p.file.take p.nbytes ∧
      p.data.length = p.nbytes := by
  have hrun : (replay step (fun _ _ => true) new
      [.submit (.store [(⟨[171], "m/n", 1⟩, [1, 2, 3])]), .next, .write 1, .crash (some [7]),
        .submit (.lookup [⟨[171], "m/n", 1⟩]), .next,
        .submit (.store [(⟨[171], "m/n", 1⟩, [1, 2, 3])]), .next, .write 2, .write 1, .next, .next,
        .next, .submit (.load [(⟨[171], "m/n", 1⟩, 3)]), .next, .next]).map FSAdapter.filled =
      some [⟨⟨[171], "m/n", 1⟩, 3, [1, 2, 3], [1, 2, 3]⟩] := by decide
  obtain ⟨fs, hfs, hfilled⟩ := Option.map_eq_some_iff.mp hrun
  have hreach : fs.Reachable := ⟨_, (run_of_replay hfs).mono fun _ _ _ => trivial⟩
  exact ⟨fs, hreach, hfilled, (crash_safe hreach).2.2.1⟩

end FSAdapter

end MiniLlmcache
