import MiniLlmcache.Hasher
import MiniLlmcache.Slices

/-!
# What a chunk hash identifies

The inputs of the hashes of `chunk_hashes` form a chain : the input of a chunk is the digest of
the input before it, followed by the packed tokens of the chunk, and the chain starts with the
input of `NONE_HASH` (`hashedInputs_succ`). A digest has 32 bytes and a token four, so an input
can be read apart, and its length gives the chunk size. The input of `NONE_HASH` has 12 bytes :
no other one is as short.

`chunk_hash_identifies_prefix` goes along two chains from the end. Unless two of the inputs
collide, the chains have equal inputs all the way down and reach their start together.
-/

namespace MiniLlmcache

variable (blake3 : Bytes → Bytes)

/-! ## The chain of inputs -/

/-- The input of `NONE_HASH`. -/
def noneInput : Bytes := List.replicate 8 0 ++ [0].flatMap packToken

/-- What the loop of `chunk_hashes` hashes. -/
def chunkInputs (chunkSize : ℕ) : ℕ → Bytes → List ℕ → List Bytes
  | 0, _, _ => []
  | n + 1, prefixHash, tokens =>
    let input := prefixHash ++ (tokens.take chunkSize).flatMap packToken
    input :: chunkInputs chunkSize n (blake3 input) (tokens.drop chunkSize)

/-- Everything hashed for the chunks of `tokenIds`, the input of `NONE_HASH` first. -/
def hashedInputs (tokenIds : List ℕ) (chunkSize : ℕ) : List Bytes :=
  noneInput ::
    chunkInputs blake3 chunkSize (tokenIds.length / chunkSize) (noneHash blake3) tokenIds

/-- Two different inputs have the same digest. -/
def Collision (inputs : List Bytes) : Prop :=
  ∃ x ∈ inputs, ∃ y ∈ inputs, x ≠ y ∧ blake3 x = blake3 y

instance (inputs : List Bytes) : Decidable (Collision blake3 inputs) := by
  unfold Collision
  infer_instance

variable {blake3}

theorem chunkHashesLoop_eq (c : ℕ) : ∀ (n : ℕ) (h : Bytes) (tokens : List ℕ),
    chunkHashesLoop blake3 c n h tokens = (chunkInputs blake3 c n h tokens).map blake3
  | 0, _, _ => rfl
  | n + 1, h, tokens => by
    simp only [chunkHashesLoop, chunkInputs, List.map_cons, chunkHashesLoop_eq c n, hashOne]

/-- The hashes are the digests of the inputs. -/
theorem map_hashedInputs (tokens : List ℕ) (c : ℕ) :
    (hashedInputs blake3 tokens c).map blake3 = noneHash blake3 :: chunkHashes blake3 tokens c := by
  rw [chunkHashes, chunkHashesLoop_eq]
  rfl

theorem chunkInputs_succ (c : ℕ) : ∀ (n i : ℕ) (x₀ : Bytes) (tokens : List ℕ) {x : Bytes},
    (x₀ :: chunkInputs blake3 c n (blake3 x₀) tokens)[i + 1]? = some x →
    ∃ y, (x₀ :: chunkInputs blake3 c n (blake3 x₀) tokens)[i]? = some y ∧
      x = blake3 y ++ (slice tokens (i * c) ((i + 1) * c)).flatMap packToken
  | 0, i, _, _, _, h => by simp [chunkInputs] at h
  | n + 1, 0, x₀, tokens, x, h => by
    simp only [chunkInputs, zero_add, List.getElem?_cons_succ, List.getElem?_cons_zero,
      Option.some.injEq] at h
    exact ⟨x₀, rfl, by simp [← h, slice]⟩
  | n + 1, i + 1, x₀, tokens, x, h => by
    simp only [chunkInputs, List.getElem?_cons_succ] at h ⊢
    obtain ⟨y, hy, rfl⟩ := chunkInputs_succ c n i _ (tokens.drop c) h
    refine ⟨y, hy, ?_⟩
    have hslice : slice (tokens.drop c) (i * c) ((i + 1) * c) =
        slice tokens ((i + 1) * c) ((i + 1 + 1) * c) := by
      have h1 : c + i * c = (i + 1) * c := by rw [Nat.succ_mul, Nat.add_comm]
      have h2 : (i + 1) * c - i * c = (i + 1 + 1) * c - (i + 1) * c := by
        simp only [Nat.succ_mul]
        omega
      rw [slice, slice, List.drop_drop, h1, h2]
    rw [hslice]

/-- An input is the digest of the one before it, followed by the tokens of its chunk. -/
theorem hashedInputs_succ {tokens : List ℕ} {c i : ℕ} {x : Bytes}
    (h : (hashedInputs blake3 tokens c)[i + 1]? = some x) :
    ∃ y, (hashedInputs blake3 tokens c)[i]? = some y ∧
      x = blake3 y ++ (slice tokens (i * c) ((i + 1) * c)).flatMap packToken :=
  chunkInputs_succ c _ i noneInput tokens h

theorem length_hashedInputs (tokens : List ℕ) (c : ℕ) :
    (hashedInputs blake3 tokens c).length = tokens.length / c + 1 := by
  have hmap : (hashedInputs blake3 tokens c).map blake3 = _ := map_hashedInputs tokens c
  have hlen := congrArg List.length hmap
  rwa [List.length_map, List.length_cons, length_chunkHashes] at hlen

/-! ## Packed tokens -/

theorem length_packToken (t : ℕ) : (packToken t).length = 4 := rfl

theorem packToken_inj {t t' : ℕ} (ht : t < 2 ^ 32) (ht' : t' < 2 ^ 32)
    (h : packToken t = packToken t') : t = t' := by
  have hbyte : ∀ {m n : ℕ}, UInt8.ofNat m = UInt8.ofNat n → m % 256 = n % 256 := fun he => by
    simpa using congrArg UInt8.toNat he
  simp only [packToken, List.cons.injEq, and_true] at h
  obtain ⟨h3, h2, h1, h0⟩ := h
  have h3 := hbyte h3
  have h2 := hbyte h2
  have h1 := hbyte h1
  have h0 := hbyte h0
  omega

theorem length_slice_chunk {tokens : List ℕ} {c i : ℕ} (hi : i < tokens.length / c) :
    (slice tokens (i * c) ((i + 1) * c)).length = c := by
  have hle : (i + 1) * c ≤ tokens.length :=
    (Nat.mul_le_mul_right c hi).trans (Nat.div_mul_le_self _ _)
  rw [length_slice, Nat.min_eq_left hle, Nat.succ_mul, Nat.add_sub_cancel_left]

/-! ## Two chains -/

/-- Two chains whose inputs do not collide, at inputs with the same digest : they are equally far
from their start, and have the same tokens before. -/
theorem prefix_eq_of_digest_eq (hdigest : ∀ x, (blake3 x).length = 32) {a b : List ℕ}
    (ha : ∀ t ∈ a, t < 2 ^ 32) (hb : ∀ t ∈ b, t < 2 ^ 32) {c d : ℕ}
    (hno : ∀ x ∈ hashedInputs blake3 a c, ∀ y ∈ hashedInputs blake3 b d,
      blake3 x = blake3 y → x = y) :
    ∀ {i j : ℕ} {x y : Bytes}, i ≤ a.length / c → j ≤ b.length / d →
      (hashedInputs blake3 a c)[i]? = some x → (hashedInputs blake3 b d)[j]? = some y →
      blake3 x = blake3 y → i = j ∧ (0 < i → c = d) ∧ a.take (i * c) = b.take (j * d)
  | 0, 0, _, _, _, _, _, _, _ => by simp
  | 0, j + 1, x, y, _, _, hx, hy, h => by
    have hxy := hno x (List.mem_of_getElem? hx) y (List.mem_of_getElem? hy) h
    obtain rfl : noneInput = x := Option.some.inj hx
    obtain ⟨y', -, rfl⟩ := hashedInputs_succ hy
    have hlen := congrArg List.length hxy
    simp [noneInput, packToken, hdigest] at hlen
    omega
  | i + 1, 0, x, y, _, _, hx, hy, h => by
    have hxy := hno x (List.mem_of_getElem? hx) y (List.mem_of_getElem? hy) h
    obtain rfl : noneInput = y := Option.some.inj hy
    obtain ⟨x', -, rfl⟩ := hashedInputs_succ hx
    have hlen := congrArg List.length hxy
    simp [noneInput, packToken, hdigest] at hlen
    omega
  | i + 1, j + 1, x, y, hi, hj, hx, hy, h => by
    have hxy := hno x (List.mem_of_getElem? hx) y (List.mem_of_getElem? hy) h
    obtain ⟨x', hx', rfl⟩ := hashedInputs_succ hx
    obtain ⟨y', hy', rfl⟩ := hashedInputs_succ hy
    obtain ⟨hprev, htokens⟩ := List.append_inj hxy ((hdigest x').trans (hdigest y').symm)
    -- the inputs end with the same tokens, and there are `c` of them here, `d` there
    have hchunk : slice a (i * c) ((i + 1) * c) = slice b (j * d) ((j + 1) * d) :=
      flatMap_inj (by decide) length_packToken (fun t ht t' ht' => packToken_inj
        (ha t (mem_of_mem_slice ht)) (hb t' (mem_of_mem_slice ht'))) htokens
    obtain rfl : c = d := by
      rw [← length_slice_chunk (c := c) hi, hchunk, length_slice_chunk hj]
    obtain ⟨rfl, -, hbefore⟩ := prefix_eq_of_digest_eq hdigest ha hb hno (Nat.le_of_lt hi)
      (Nat.le_of_lt hj) hx' hy' hprev
    have hle : i * c ≤ (i + 1) * c := Nat.mul_le_mul_right c (Nat.le_succ i)
    refine ⟨rfl, fun _ => rfl, ?_⟩
    rw [← take_append_slice a hle, ← take_append_slice b hle, hbefore, hchunk]

/-- A chunk hash identifies its whole prefix : equal hashes come from the same chunk size, the
same index and the same tokens up to the end of the chunk, unless two of the byte strings hashed
on the way collide; and equal prefixes have equal hashes, whatever follows. -/
theorem chunk_hash_identifies_prefix (hdigest : ∀ x, (blake3 x).length = 32) {a b : List ℕ}
    (ha : ∀ t ∈ a, t < 2 ^ 32) (hb : ∀ t ∈ b, t < 2 ^ 32) {c d i j : ℕ}
    (hi : i < a.length / c) (hj : j < b.length / d) :
    ((chunkHashes blake3 a c)[i]? = (chunkHashes blake3 b d)[j]? →
      (c = d ∧ i = j ∧ a.take ((i + 1) * c) = b.take ((i + 1) * c)) ∨
        Collision blake3 (hashedInputs blake3 a c ++ hashedInputs blake3 b d)) ∧
    (c = d ∧ i = j ∧ a.take ((i + 1) * c) = b.take ((i + 1) * c) →
      (chunkHashes blake3 a c)[i]? = (chunkHashes blake3 b d)[j]?) := by
  constructor
  · intro heq
    by_cases hcoll : Collision blake3 (hashedInputs blake3 a c ++ hashedInputs blake3 b d)
    · exact Or.inr hcoll
    · have hno : ∀ x ∈ hashedInputs blake3 a c, ∀ y ∈ hashedInputs blake3 b d,
          blake3 x = blake3 y → x = y := fun x hx y hy he => by
        by_contra hne
        exact hcoll ⟨x, List.mem_append_left _ hx, y, List.mem_append_right _ hy, hne, he⟩
      have hdigestOf : ∀ {tokens : List ℕ} {n k : ℕ}, k < tokens.length / n →
          ∃ x, (hashedInputs blake3 tokens n)[k + 1]? = some x ∧
            (chunkHashes blake3 tokens n)[k]? = some (blake3 x) := fun {tokens n k} hk => by
        have hlt : k + 1 < (hashedInputs blake3 tokens n).length := by
          rw [length_hashedInputs]
          omega
        refine ⟨_, List.getElem?_eq_getElem hlt, ?_⟩
        rw [← List.getElem?_cons_succ (a := noneHash blake3), ← map_hashedInputs,
          List.getElem?_map, List.getElem?_eq_getElem hlt]
        rfl
      obtain ⟨x, hx, hx'⟩ := hdigestOf hi
      obtain ⟨y, hy, hy'⟩ := hdigestOf hj
      rw [hx', hy', Option.some.injEq] at heq
      obtain ⟨hij, hcd, htake⟩ := prefix_eq_of_digest_eq hdigest ha hb hno hi hj hx hy heq
      obtain rfl := Nat.succ_injective hij
      obtain rfl := hcd (Nat.succ_pos i)
      exact Or.inl ⟨rfl, rfl, htake⟩
  · rintro ⟨rfl, rfl, htake⟩
    have hsame : (chunkHashes blake3 a c).take (i + 1) = (chunkHashes blake3 b c).take (i + 1) :=
      chunkHashes_take_eq hi hj htake
    rw [← List.getElem?_take_of_lt (Nat.lt_succ_self i), hsame,
      List.getElem?_take_of_lt (Nat.lt_succ_self i)]

/-- A digest of 32 bytes that keeps the end of its input. -/
def lastBytes (x : Bytes) : Bytes := (x.reverse ++ List.replicate 32 0).take 32

/-- Prompts that share their first chunk of two have its hash in common, and no more. -/
theorem chunk_hash_identifies_prefix_sample :
    (chunkHashes lastBytes [1, 2, 3, 4, 5] 2)[0]? = (chunkHashes lastBytes [1, 2, 9, 4] 2)[0]? ∧
    (chunkHashes lastBytes [1, 2, 3, 4, 5] 2)[1]? ≠ (chunkHashes lastBytes [1, 2, 9, 4] 2)[1]? := by
  have hdigest : ∀ x, (lastBytes x).length = 32 := fun x => by simp [lastBytes]
  have hid := fun i (hi : i < 2) => chunk_hash_identifies_prefix hdigest
    (a := [1, 2, 3, 4, 5]) (b := [1, 2, 9, 4]) (c := 2) (d := 2) (i := i) (j := i)
    (by decide) (by decide) hi hi
  refine ⟨(hid 0 (by decide)).2 (by decide), fun heq => ?_⟩
  rcases (hid 1 (by decide)).1 heq with hsame | hcoll
  · exact absurd hsame (by decide)
  · exact absurd hcoll (by decide)

end MiniLlmcache
