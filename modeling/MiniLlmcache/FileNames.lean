import MiniLlmcache.FSAdapter
import MiniLlmcache.Slices

/-!
# File names of chunks

`filename` writes the model, the rank and the hash of a chunk between `@`. The rank and the hash
are in hexadecimal, without `@`, so they can be read back from the end, whatever the model. The
model is written with `-` for `/`, and that cannot be undone (`filename_eq_iff`).

`kept_apart_iff` : over a set of keys the adapter keeps chunks apart exactly when no two of
them have the same rank and hash, and models that differ only in `/` and `-`.
-/

namespace MiniLlmcache

/-! ## Reading a file name -/

/-- `key.model.replace('/', '-')`. -/
def dashed (model : String) : List Char := model.toList.map fun c => if c = '/' then '-' else c

theorem digitChar_inj {m n : ℕ} (hm : m < 16) (hn : n < 16)
    (h : Nat.digitChar m = Nat.digitChar n) : m = n := by
  have hall : ∀ m < 16, ∀ n < 16, Nat.digitChar m = Nat.digitChar n → m = n := by decide
  exact hall m hm n hn h

theorem digitChar_ne_at {n : ℕ} (hn : n < 16) : Nat.digitChar n ≠ '@' := by
  have hall : ∀ n < 16, Nat.digitChar n ≠ '@' := by decide
  exact hall n hn

theorem toDigits_hex (n : ℕ) : Nat.toDigits 16 n =
    if n < 16 then [Nat.digitChar n]
    else Nat.toDigits 16 (n / 16) ++ [Nat.digitChar (n % 16)] := by
  rw [Nat.toDigits_eq_if (by decide)]

theorem at_notMem_toDigits (n : ℕ) : '@' ∉ Nat.toDigits 16 n := by
  induction n using Nat.strong_induction_on with
  | _ n ih =>
    rw [toDigits_hex]
    split_ifs with h
    · rw [List.mem_singleton]
      exact (digitChar_ne_at h).symm
    · rw [List.mem_append, List.mem_singleton]
      rintro (hhigh | hlow)
      · exact ih (n / 16) (by omega) hhigh
      · exact digitChar_ne_at (Nat.mod_lt n (by decide)) hlow.symm

theorem toDigits_inj (m n : ℕ) (h : Nat.toDigits 16 m = Nat.toDigits 16 n) : m = n := by
  induction m using Nat.strong_induction_on generalizing n with
  | _ m ih =>
    have hm := toDigits_hex m
    have hn := toDigits_hex n
    rw [hm, hn] at h
    split_ifs at h with hlm hln hln
    · exact digitChar_inj hlm hln (List.singleton_injective h)
    · have hlen := congrArg List.length h
      have hpos := List.length_pos_of_ne_nil (Nat.toDigits_ne_nil (n := n / 16) (b := 16))
      simp only [List.length_append, List.length_singleton] at hlen
      omega
    · have hlen := congrArg List.length h
      have hpos := List.length_pos_of_ne_nil (Nat.toDigits_ne_nil (n := m / 16) (b := 16))
      simp only [List.length_append, List.length_singleton] at hlen
      omega
    · obtain ⟨hhigh, hlow⟩ := List.append_inj' h rfl
      have hdiv := ih (m / 16) (by omega) (n / 16) hhigh
      have hmod := digitChar_inj (Nat.mod_lt m (by decide)) (Nat.mod_lt n (by decide))
        (List.singleton_injective hlow)
      omega

theorem at_notMem_hex (bytes : Bytes) : '@' ∉ hex bytes := by
  intro h
  obtain ⟨b, -, hb⟩ := List.mem_flatMap.mp h
  have hlt : b.toNat < 256 := b.toNat_lt
  simp only [List.mem_cons, List.not_mem_nil, or_false] at hb
  rcases hb with hb | hb
  · exact digitChar_ne_at (by omega) hb.symm
  · exact digitChar_ne_at (by omega) hb.symm

theorem hex_inj {x y : Bytes} (h : hex x = hex y) : x = y := by
  refine flatMap_inj (by decide : 0 < 2) (fun _ => rfl) (fun b _ b' _ hb => ?_) h
  have hlt : b.toNat < 256 := b.toNat_lt
  have hlt' : b'.toNat < 256 := b'.toNat_lt
  simp only [List.cons.injEq, and_true] at hb
  have hhigh := digitChar_inj (by omega) (by omega) hb.1
  have hlow := digitChar_inj (by omega) (by omega) hb.2
  exact UInt8.toNat_inj.mp (by omega)

/-- Two chunks share a file name exactly when they differ in `/` and `-` of the model at most. -/
theorem filename_eq_iff (k k' : ChunkKey) : filename k = filename k' ↔
    dashed k.model = dashed k'.model ∧ k.rank = k'.rank ∧ k.chunkHash = k'.chunkHash := by
  constructor
  · intro h
    have hlist := congrArg String.toList h
    simp only [filename, String.toList_append, String.toList_ofList] at hlist
    have hname := List.append_inj_left' hlist rfl
    obtain ⟨hmodel, hhash⟩ := append_cons_inj_last (at_notMem_hex _) (at_notMem_hex _) hname
    obtain ⟨hmodel, hrank⟩ :=
      append_cons_inj_last (at_notMem_toDigits _) (at_notMem_toDigits _) hmodel
    exact ⟨hmodel, toDigits_inj _ _ hrank, hex_inj hhash⟩
  · rintro ⟨hmodel, hrank, hhash⟩
    simp only [dashed] at hmodel
    simp only [filename, hmodel, hrank, hhash]

/-! ## Chunks under their file names -/

def FSTask.keys : FSTask → List ChunkKey
  | .store items => items.map Prod.fst
  | .lookup keys => keys
  | .load slots => slots.map Prod.fst

/-- The keys that the thread still works on. -/
def FSThread.keys : FSThread → List ChunkKey
  | .idle => []
  | .store todo => todo.map Prod.fst
  | .write key _ _ todo | .replace key todo => key :: todo.map Prod.fst
  | .lookup todo _ => todo
  | .load todo _ => todo.map Prod.fst

namespace FSAdapter

variable {K : Set ChunkKey} {fs fs' : FSAdapter} {k : ChunkKey}

/-- Tasks over chunks of `K`. -/
def Over (K : Set ChunkKey) (_ : FSAdapter) : FSLabel → Prop
  | .submit task => ∀ k ∈ task.keys, k ∈ K
  | _ => True

/-- Everything that is given to `store` in a run. -/
def storesOf (labels : List FSLabel) : List (ChunkKey × Bytes) :=
  labels.flatMap fun
    | .submit (.store items) => items
    | _ => []

/-- The first object given for a chunk. -/
def under (items : List (ChunkKey × Bytes)) (k : ChunkKey) : Option Bytes :=
  (items.find? fun p => p.1 = k).map Prod.snd

/-- The keys of a state are of `K`. -/
structure Within (K : Set ChunkKey) (fs : FSAdapter) : Prop where
  thread : ∀ k ∈ fs.thread.keys, k ∈ K
  counted : ∀ p ∈ fs.counted, p.1 ∈ K
  filled : ∀ p ∈ fs.filled, p.key ∈ K

theorem Within.next (h : fs.Within K) (hs : fs.next = some fs') :
    fs'.Within K ∧ fs'.given = fs.given := by
  have hthread := h.thread
  unfold FSAdapter.next at hs
  split at hs <;> rename_i ht <;> rw [ht] at hthread
  · simp at hs
  · obtain rfl := Option.some.inj hs
    exact ⟨⟨List.forall_mem_nil _, h.counted, h.filled⟩, rfl⟩
  · split_ifs at hs
    · obtain rfl := Option.some.inj hs
      exact ⟨⟨fun k hk => hthread k (List.mem_cons_of_mem _ hk), h.counted, h.filled⟩, rfl⟩
    · obtain rfl := Option.some.inj hs
      exact ⟨⟨hthread, h.counted, h.filled⟩, rfl⟩
  · split_ifs at hs
    obtain rfl := Option.some.inj hs
    exact ⟨⟨hthread, h.counted, h.filled⟩, rfl⟩
  · split at hs
    · obtain rfl := Option.some.inj hs
      exact ⟨⟨List.forall_mem_nil _, h.counted, h.filled⟩, rfl⟩
    · obtain rfl := Option.some.inj hs
      exact ⟨⟨fun k hk => hthread k (List.mem_cons_of_mem _ hk), h.counted, h.filled⟩, rfl⟩
  · obtain rfl := Option.some.inj hs
    exact ⟨⟨List.forall_mem_nil _, h.counted, h.filled⟩, rfl⟩
  · split at hs
    · obtain rfl := Option.some.inj hs
      exact ⟨⟨List.forall_mem_nil _, h.counted, h.filled⟩, rfl⟩
    · obtain rfl := Option.some.inj hs
      refine ⟨⟨fun k hk => hthread k (List.mem_cons_of_mem _ hk), fun p hp => ?_, h.filled⟩, rfl⟩
      rcases List.mem_append.mp hp with hp | hp
      · exact h.counted p hp
      · rw [List.mem_singleton.mp hp]
        exact hthread _ List.mem_cons_self
  · obtain rfl := Option.some.inj hs
    exact ⟨⟨List.forall_mem_nil _, h.counted, h.filled⟩, rfl⟩
  · split at hs
    · obtain rfl := Option.some.inj hs
      exact ⟨⟨List.forall_mem_nil _, h.counted, h.filled⟩, rfl⟩
    · split_ifs at hs
      · obtain rfl := Option.some.inj hs
        exact ⟨⟨List.forall_mem_nil _, h.counted, h.filled⟩, rfl⟩
      · obtain rfl := Option.some.inj hs
        refine ⟨⟨fun k hk => hthread k (List.mem_cons_of_mem _ hk), h.counted, fun p hp => ?_⟩,
          rfl⟩
        rcases List.mem_append.mp hp with hp | hp
        · exact h.filled p hp
        · rw [List.mem_singleton.mp hp]
          exact hthread _ List.mem_cons_self

theorem Within.step {l : FSLabel} (h : fs.Within K) (hok : Over K fs l)
    (hs : fs.step l = some fs') : fs'.Within K ∧
      fs'.given = fs.given ++ (storesOf [l]).map fun p => (filename p.1, p.2) := by
  rcases l with task | _ | n | _ | left
  · unfold FSAdapter.step at hs
    split_ifs at hs
    obtain rfl := Option.some.inj hs
    rcases task with items | keys | slots
    · exact ⟨⟨hok, h.counted, h.filled⟩, by simp [submit, storesOf]⟩
    · exact ⟨⟨hok, h.counted, h.filled⟩, by simp [submit, storesOf]⟩
    · exact ⟨⟨hok, h.counted, h.filled⟩, by simp [submit, storesOf]⟩
  · obtain ⟨hw, hgiven⟩ := h.next hs
    exact ⟨hw, by simpa [storesOf] using hgiven⟩
  · have hthread := h.thread
    change fs.write n = some fs' at hs
    unfold FSAdapter.write at hs
    split at hs
    · rename_i ht
      rw [ht] at hthread
      split_ifs at hs
      obtain rfl := Option.some.inj hs
      exact ⟨⟨hthread, h.counted, h.filled⟩, by simp [storesOf]⟩
    · simp at hs
  · unfold FSAdapter.step at hs
    split_ifs at hs
    obtain rfl := Option.some.inj hs
    exact ⟨⟨List.forall_mem_nil _, h.counted, h.filled⟩, by simp [storesOf]⟩
  · obtain rfl := Option.some.inj hs
    exact ⟨⟨List.forall_mem_nil _, h.counted, h.filled⟩, by simp [storesOf]⟩

theorem Within.run {labels : List FSLabel} (h : fs.Within K)
    (hrun : Run FSAdapter.step (Over K) fs labels fs') : fs'.Within K ∧
      fs'.given = fs.given ++ (storesOf labels).map fun p => (filename p.1, p.2) := by
  induction hrun with
  | refl => exact ⟨h, by simp [storesOf]⟩
  | @snoc labels _ l _ _ hok hs ih =>
    obtain ⟨hw, hgiven⟩ := ih
    obtain ⟨hw', hgiven'⟩ := hw.step hok hs
    have happend : storesOf (labels ++ [l]) = storesOf labels ++ storesOf [l] := by
      simp [storesOf]
    refine ⟨hw', ?_⟩
    rw [hgiven', hgiven, happend, List.map_append, List.append_assoc]

/-- A file changes under its final name only when its object is renamed. -/
theorem replace_of_changed {l : FSLabel} {name : String} (hs : fs.step l = some fs')
    (hne : fs'.stored? name ≠ fs.stored? name) :
    ∃ key todo, fs.thread = .replace key todo ∧ filename key = name := by
  rcases l with task | _ | n | _ | left
  · unfold FSAdapter.step at hs
    split_ifs at hs
    obtain rfl := Option.some.inj hs
    rcases task with items | keys | slots <;> exact absurd rfl hne
  · change fs.next = some fs' at hs
    unfold FSAdapter.next at hs
    split at hs
    case h_3 =>
      split_ifs at hs
      · obtain rfl := Option.some.inj hs
        exact absurd rfl hne
      · obtain rfl := Option.some.inj hs
        rw [stored?, get?_set_tmp] at hne
        exact absurd rfl hne
    case h_5 key todo ht =>
      split at hs
      · obtain rfl := Option.some.inj hs
        exact absurd rfl hne
      · obtain rfl := Option.some.inj hs
        refine ⟨key, todo, ht, ?_⟩
        by_contra hname
        rw [stored?, get?_replace, if_neg hname] at hne
        exact hne rfl
    case h_1 => simp at hs
    case h_9 =>
      split at hs
      · obtain rfl := Option.some.inj hs
        exact absurd rfl hne
      · split_ifs at hs <;> obtain rfl := Option.some.inj hs <;> exact absurd rfl hne
    case h_4 =>
      split_ifs at hs
      obtain rfl := Option.some.inj hs
      exact absurd rfl hne
    case h_7 => split at hs <;> obtain rfl := Option.some.inj hs <;> exact absurd rfl hne
    all_goals
      obtain rfl := Option.some.inj hs
      exact absurd rfl hne
  · change fs.write n = some fs' at hs
    unfold FSAdapter.write at hs
    split at hs
    · split_ifs at hs
      obtain rfl := Option.some.inj hs
      rw [stored?, get?_set_tmp] at hne
      exact absurd rfl hne
    · simp at hs
  · unfold FSAdapter.step at hs
    split_ifs at hs
    obtain rfl := Option.some.inj hs
    exact absurd rfl hne
  · obtain rfl := Option.some.inj hs
    rw [stored?, get?_leave] at hne
    exact absurd rfl hne

/-- Chunks of `K` that share a file name are one chunk. -/
def Apart (K : Set ChunkKey) : Prop :=
  ∀ k ∈ K, ∀ k' ∈ K, dashed k.model = dashed k'.model → k.rank = k'.rank →
    k.chunkHash = k'.chunkHash → k.model = k'.model

theorem Apart.eq_of_filename (h : Apart K) {k k' : ChunkKey} (hk : k ∈ K) (hk' : k' ∈ K)
    (heq : filename k = filename k') : k = k' := by
  obtain ⟨hdashed, hrank, hhash⟩ := (filename_eq_iff k k').mp heq
  have hmodel := h k hk k' hk' hdashed hrank hhash
  cases k
  cases k'
  simp_all

/-- With one name a chunk, the first object for the name is the first for the chunk. -/
theorem Apart.first_eq (h : Apart K) (hk : k ∈ K) : ∀ {items : List (ChunkKey × Bytes)},
    (∀ p ∈ items, p.1 ∈ K) → first items (filename k) = under items k
  | [], _ => rfl
  | p :: items, hitems => by
    have hp := hitems p List.mem_cons_self
    have ih := h.first_eq hk fun q hq => hitems q (List.mem_cons_of_mem p hq)
    unfold first under at ih ⊢
    by_cases hpk : p.1 = k
    · rw [List.find?_cons_of_pos (by simp [hpk]), List.find?_cons_of_pos (by simp [hpk])]
    · have hname : filename p.1 ≠ filename k := fun heq => hpk (h.eq_of_filename hp hk heq)
      rw [List.find?_cons_of_neg (by simp [hname]), List.find?_cons_of_neg (by simp [hpk]), ih]

/-- What was given under the name of a chunk was given for the chunk. -/
theorem Apart.of_given (h : Apart K) (hk : k ∈ K) {stores : List (ChunkKey × Bytes)}
    (hstores : ∀ p ∈ stores, p.1 ∈ K) {data : Bytes}
    (hgiven : (filename k, data) ∈ stores.map fun p => (filename p.1, p.2)) :
    (k, data) ∈ stores := by
  obtain ⟨⟨k', data'⟩, hp, heq⟩ := List.mem_map.mp hgiven
  obtain ⟨hname, rfl⟩ := Prod.mk.inj heq
  obtain rfl := h.eq_of_filename (hstores _ hp) hk hname
  exact hp

theorem keys_storesOf {labels : List FSLabel} (hrun : Run FSAdapter.step (Over K) fs labels fs') :
    ∀ p ∈ storesOf labels, p.1 ∈ K := by
  induction hrun with
  | refl => exact nofun
  | @snoc labels _ l _ _ hok _ ih =>
    intro p hp
    rw [storesOf, List.flatMap_append, List.mem_append] at hp
    rcases hp with hp | hp
    · exact ih p hp
    · rw [List.flatMap_singleton] at hp
      split at hp
      · exact hok p.1 (List.mem_map_of_mem hp)
      · cases hp

/-- `FSAdapter` keeps the chunks of `K` apart exactly when no two of them have the same rank and
hash, and models that differ only in `/` and `-` : then their file names differ, and in every
run over `K` the file of a chunk changes only when a `store` renames an object of that chunk,
holds an object that was stored for it, and so does what a `lookup` counts and a `load` reads;
after a whole `store` it is what it was before, or the first object given for that chunk. -/
theorem kept_apart_iff (K : Set ChunkKey) :
    ((∀ k ∈ K, ∀ k' ∈ K, k ≠ k' → filename k ≠ filename k') ∧
      ∀ labels fs, Run FSAdapter.step (Over K) new labels fs → ∀ k ∈ K,
        (∀ data, fs.stored? (filename k) = some data → (k, data) ∈ storesOf labels) ∧
        (∀ data, (k, data) ∈ fs.counted → (k, data) ∈ storesOf labels) ∧
        (∀ p ∈ fs.filled, p.key = k → (k, p.file) ∈ storesOf labels ∧
          p.data = p.file.take p.nbytes ∧ p.data.length = p.nbytes) ∧
        (∀ l fs', fs.step l = some fs' → fs'.stored? (filename k) ≠ fs.stored? (filename k) →
          ∃ todo, fs.thread = .replace k todo) ∧
        ∀ items, (∀ p ∈ items, p.1 ∈ K) → ∀ labels' fs',
          Run FSAdapter.step Uncut (fs.submit (.store items)) labels' fs' → fs'.thread = .idle →
            fs'.stored? (filename k) = (fs.stored? (filename k)).or (under items k)) ↔
    Apart K := by
  constructor
  · rintro ⟨hnames, -⟩ k hk k' hk' hdashed hrank hhash
    by_contra hne
    exact hnames k hk k' hk' (fun heq => hne (congrArg ChunkKey.model heq))
      ((filename_eq_iff k k').mpr ⟨hdashed, hrank, hhash⟩)
  · intro h
    refine ⟨fun k hk k' hk' hne heq => hne (h.eq_of_filename hk hk' heq), ?_⟩
    intro labels fs hrun k hk
    have hreach : fs.Reachable := ⟨labels, hrun.mono fun _ _ _ => trivial⟩
    obtain ⟨hcomplete, -, hcounted, hfilled⟩ := hreach.inv
    have hnew : new.Within K := ⟨nofun, nofun, nofun⟩
    obtain ⟨hwithin, hgiven⟩ := hnew.run hrun
    have hkeys := keys_storesOf hrun
    rw [new, List.nil_append] at hgiven
    rw [hgiven] at hcomplete hcounted
    refine ⟨fun data hdata => ?_, fun data hdata => ?_, fun p hp hpk => ?_,
      fun l fs' hs hne => ?_, fun items hitems labels' fs' hrun' hidle => ?_⟩
    · exact h.of_given hk hkeys (hcomplete _ _ hdata)
    · exact h.of_given hk hkeys (hcounted (k, data) hdata)
    · obtain ⟨hfile, hdata, hlen⟩ := hfilled p hp
      rw [hgiven, hpk] at hfile
      exact ⟨h.of_given hk hkeys hfile, hdata, hlen⟩
    · obtain ⟨key, todo, hthread, hname⟩ := replace_of_changed hs hne
      have hkey : key ∈ K := hwithin.thread key (by rw [hthread]; exact List.mem_cons_self)
      obtain rfl := h.eq_of_filename hkey hk hname
      exact ⟨todo, hthread⟩
    · rw [stored?_of_uncut hrun' hidle, h.first_eq hk hitems]

/-- A chunk of `a/b` is stored; the chunk of `a-b` with the same hash is then found and loaded,
with bytes that were never stored for it. -/
theorem load_of_other_model : ∃ labels fs, Run FSAdapter.step (Over Set.univ) new labels fs ∧
    filename ⟨[1], "a/b", 0⟩ = filename ⟨[1], "a-b", 0⟩ ∧
    fs.filled = [⟨⟨[1], "a-b", 0⟩, 1, [7], [7]⟩] ∧
    ∀ blob, ((⟨[1], "a-b", 0⟩ : ChunkKey), blob) ∉ storesOf labels := by
  have hrun : (replay FSAdapter.step (fun _ _ => true) new
      [.submit (.store [(⟨[1], "a/b", 0⟩, [7])]), .next, .write 1, .next, .next, .next,
        .submit (.load [(⟨[1], "a-b", 0⟩, 1)]), .next]).map FSAdapter.filled =
      some [⟨⟨[1], "a-b", 0⟩, 1, [7], [7]⟩] := by decide
  obtain ⟨fs, hfs, hfilled⟩ := Option.map_eq_some_iff.mp hrun
  refine ⟨_, fs, (run_of_replay hfs).mono fun _ l _ => ?_, by decide, hfilled, ?_⟩
  · cases l <;> simp [Over]
  · intro blob
    simp [storesOf]

end FSAdapter

end MiniLlmcache
