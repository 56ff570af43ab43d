import KVCache.Core.Ids
import Mathlib.Data.Set.Function

namespace KVCache

-- The two XXH3 digests, which the code takes from a library.
structure XXH3 where
  bits64 : List UInt8 → UInt64
  bits128 : List UInt8 → ContentHash

def writeU32Le (val : UInt32) : List UInt8 :=
  [val.toUInt8, (val >>> 8).toUInt8, (val >>> 16).toUInt8, (val >>> 24).toUInt8]

def writeU64Le (val : UInt64) : List UInt8 :=
  [val.toUInt8, (val >>> 8).toUInt8, (val >>> 16).toUInt8, (val >>> 24).toUInt8,
    (val >>> 32).toUInt8, (val >>> 40).toUInt8, (val >>> 48).toUInt8, (val >>> 56).toUInt8]

def writeU16Le (val : UInt16) : List UInt8 :=
  [val.toUInt8, (val >>> 8).toUInt8]

def DType.toU32 : DType → UInt32
  | .BF16 => 0
  | .FP16 => 1
  | .FP32 => 2
  | .INT8 => 3

-- The 56 bytes that `computeContextHash` digests; bytes 36 to 39 stay zero.
def contextBytes (ctx : CacheKeyContext) : List UInt8 :=
  writeU64Le ctx.model_id ++ writeU64Le ctx.tokenizer_id ++ writeU32Le ctx.block_size ++
    writeU32Le ctx.dtype.toU32 ++ writeU32Le ctx.num_layers ++ writeU32Le ctx.num_kv_heads ++
    writeU32Le ctx.head_dim ++ [0, 0, 0, 0] ++ writeU64Le ctx.rope_config_hash ++
    writeU64Le ctx.kv_layout_hash

-- `bytes` written into a buffer from `offset` on.
def writeAt (buf : List UInt8) (offset : Nat) (bytes : List UInt8) : List UInt8 :=
  buf.take offset ++ bytes ++ buf.drop (offset + bytes.length)

-- The same buffer as the code fills it: zeroed, then field by field.
def contextBuffer (ctx : CacheKeyContext) : List UInt8 :=
  let buf := List.replicate 56 0
  let buf := writeAt buf 0 (writeU64Le ctx.model_id)
  let buf := writeAt buf 8 (writeU64Le ctx.tokenizer_id)
  let buf := writeAt buf 16 (writeU32Le ctx.block_size)
  let buf := writeAt buf 20 (writeU32Le ctx.dtype.toU32)
  let buf := writeAt buf 24 (writeU32Le ctx.num_layers)
  let buf := writeAt buf 28 (writeU32Le ctx.num_kv_heads)
  let buf := writeAt buf 32 (writeU32Le ctx.head_dim)
  let buf := writeAt buf 40 (writeU64Le ctx.rope_config_hash)
  writeAt buf 48 (writeU64Le ctx.kv_layout_hash)

def computeContextHash (X : XXH3) (ctx : CacheKeyContext) : CacheContextHash :=
  X.bits64 (contextBytes ctx)

-- The bytes that `computeContentHash` feeds to the digest on a little-endian host.
def contentBytes (context_hash : CacheContextHash) (block_index : UInt32) (token_count : UInt16)
    (tokens : List TokenId) : List UInt8 :=
  writeU64Le context_hash ++ writeU32Le block_index ++ writeU16Le token_count ++
    tokens.flatMap fun tok => writeU32Le tok.toUInt32

def computeContentHash (X : XXH3) (context_hash : CacheContextHash) (block_index : UInt32)
    (token_count : UInt16) (tokens : List TokenId) : ContentHash :=
  X.bits128 (contentBytes context_hash block_index token_count tokens)

theorem writeU16Le_injective {x y : UInt16} (h : writeU16Le x = writeU16Le y) : x = y := by
  simp only [writeU16Le, List.cons.injEq, and_true, ← UInt8.toNat_inj, UInt16.toNat_toUInt8,
    UInt16.toNat_shiftRight, Nat.shiftRight_eq_div_pow] at h
  have hx := x.toNat_lt
  have hy := y.toNat_lt
  apply UInt16.toNat_inj.mp
  simp at h
  omega

theorem writeU32Le_injective {x y : UInt32} (h : writeU32Le x = writeU32Le y) : x = y := by
  simp only [writeU32Le, List.cons.injEq, and_true, ← UInt8.toNat_inj, UInt32.toNat_toUInt8,
    UInt32.toNat_shiftRight, Nat.shiftRight_eq_div_pow] at h
  have hx := x.toNat_lt
  have hy := y.toNat_lt
  apply UInt32.toNat_inj.mp
  simp at h
  omega

theorem writeU64Le_injective {x y : UInt64} (h : writeU64Le x = writeU64Le y) : x = y := by
  simp only [writeU64Le, List.cons.injEq, and_true, ← UInt8.toNat_inj, UInt64.toNat_toUInt8,
    UInt64.toNat_shiftRight, Nat.shiftRight_eq_div_pow] at h
  have hx := x.toNat_lt
  have hy := y.toNat_lt
  apply UInt64.toNat_inj.mp
  simp at h
  omega

theorem DType.toU32_injective {x y : DType} (h : x.toU32 = y.toU32) : x = y := by
  cases x <;> cases y <;> first | rfl | exact absurd h (by decide)

theorem flatMap_writeU32Le_injective {xs ys : List TokenId}
    (h : xs.flatMap (fun tok => writeU32Le tok.toUInt32) =
      ys.flatMap (fun tok => writeU32Le tok.toUInt32)) : xs = ys := by
  induction xs generalizing ys with
  | nil =>
      cases ys with
      | nil => rfl
      | cons y ys => simp [writeU32Le] at h
  | cons x xs ih =>
      cases ys with
      | nil => simp [writeU32Le] at h
      | cons y ys =>
          rw [List.flatMap_cons, List.flatMap_cons] at h
          obtain ⟨hx, hxs⟩ := List.append_inj h rfl
          have hxy : x = y := congrArg Int32.ofUInt32 (writeU32Le_injective hx)
          rw [hxy, ih hxs]

-- Distinct contexts have distinct buffers.
theorem contextBytes_injective {x y : CacheKeyContext} (h : contextBytes x = contextBytes y) :
    x = y := by
  unfold contextBytes at h
  obtain ⟨h, hkv⟩ := List.append_inj' h rfl
  obtain ⟨h, hrope⟩ := List.append_inj' h rfl
  obtain ⟨h, -⟩ := List.append_inj' h rfl
  obtain ⟨h, hdim⟩ := List.append_inj' h rfl
  obtain ⟨h, hheads⟩ := List.append_inj' h rfl
  obtain ⟨h, hlayers⟩ := List.append_inj' h rfl
  obtain ⟨h, hdtype⟩ := List.append_inj' h rfl
  obtain ⟨h, hblock⟩ := List.append_inj' h rfl
  obtain ⟨hmodel, htok⟩ := List.append_inj' h rfl
  cases x
  cases y
  simp only [CacheKeyContext.mk.injEq]
  exact ⟨writeU64Le_injective hmodel, writeU64Le_injective htok, writeU32Le_injective hblock,
    DType.toU32_injective (writeU32Le_injective hdtype), writeU32Le_injective hlayers,
    writeU32Le_injective hheads, writeU32Le_injective hdim, writeU64Le_injective hrope,
    writeU64Le_injective hkv⟩

-- Distinct arguments feed distinct byte streams to the content digest.
theorem contentBytes_injective {c c' : CacheContextHash} {i i' : UInt32} {n n' : UInt16}
    {ts ts' : List TokenId} (h : contentBytes c i n ts = contentBytes c' i' n' ts') :
    c = c' ∧ i = i' ∧ n = n' ∧ ts = ts' := by
  unfold contentBytes at h
  simp only [List.append_assoc] at h
  obtain ⟨hc, h⟩ := List.append_inj h rfl
  obtain ⟨hi, h⟩ := List.append_inj h rfl
  obtain ⟨hn, h⟩ := List.append_inj h rfl
  exact ⟨writeU64Le_injective hc, writeU32Le_injective hi, writeU16Le_injective hn,
    flatMap_writeU32Le_injective h⟩

private theorem writeAt_zeros {front bytes : List UInt8} {offset total : Nat} (rest : Nat)
    (hfront : front.length = offset) (htotal : bytes.length + rest = total) :
    writeAt (front ++ List.replicate total 0) offset bytes =
      (front ++ bytes) ++ List.replicate rest 0 := by
  subst hfront htotal
  rw [writeAt, List.take_left, List.drop_append, Nat.add_sub_cancel_left,
    List.drop_of_length_le (Nat.le_add_right _ _), List.drop_replicate, Nat.add_sub_cancel_left,
    List.nil_append]

-- No write reaches into another field.
theorem contextBuffer_eq (ctx : CacheKeyContext) : contextBuffer ctx = contextBytes ctx := by
  have hzeros : List.replicate 56 (0 : UInt8) = [] ++ List.replicate 56 0 := rfl
  have hpad : ∀ front : List UInt8, front ++ List.replicate 20 0 =
      (front ++ [0, 0, 0, 0]) ++ List.replicate 16 0 := fun front => by simp [List.replicate]
  simp only [contextBuffer]
  rw [hzeros, writeAt_zeros 48, writeAt_zeros 40, writeAt_zeros 36, writeAt_zeros 32,
    writeAt_zeros 28, writeAt_zeros 24, writeAt_zeros 20, hpad, writeAt_zeros 8, writeAt_zeros 0]
  · simp [contextBytes]
  all_goals rfl

-- What the two functions feed to the digests determines their arguments, so that hashes
-- of different arguments collide only where the digest itself does.
theorem hash_inputs_injective :
    (∀ ctx, (contextBuffer ctx).length = 56) ∧
    (∀ x y, contextBuffer x = contextBuffer y → x = y) ∧
    (∀ c c' i i' n n' ts ts', contentBytes c i n ts = contentBytes c' i' n' ts' →
      c = c' ∧ i = i' ∧ n = n' ∧ ts = ts') ∧
    (∀ (X : XXH3) x y, x ≠ y → computeContextHash X x = computeContextHash X y →
      contextBuffer x ≠ contextBuffer y ∧ X.bits64 (contextBuffer x) = X.bits64 (contextBuffer y)) ∧
    ∀ (X : XXH3) c c' i i' n n' ts ts', (c, i, n, ts) ≠ (c', i', n', ts') →
      computeContentHash X c i n ts = computeContentHash X c' i' n' ts' →
        contentBytes c i n ts ≠ contentBytes c' i' n' ts' ∧
          X.bits128 (contentBytes c i n ts) = X.bits128 (contentBytes c' i' n' ts') := by
  have hcontext : ∀ x y, contextBuffer x = contextBuffer y → x = y := by
    intro x y h
    rw [contextBuffer_eq, contextBuffer_eq] at h
    exact contextBytes_injective h
  refine ⟨fun ctx => by rw [contextBuffer_eq]; rfl, hcontext,
    fun c c' i i' n n' ts ts' => contentBytes_injective, ?_, ?_⟩
  · intro X x y hne hcollide
    refine ⟨fun h => hne (hcontext x y h), ?_⟩
    rwa [contextBuffer_eq, contextBuffer_eq]
  · intro X c c' i i' n n' ts ts' hne hcollide
    refine ⟨fun h => hne ?_, hcollide⟩
    obtain ⟨rfl, rfl, rfl, rfl⟩ := contentBytes_injective h
    rfl

theorem hash_inputs_injective_tail : contentBytes 1 0 2 [1, -1] ≠ contentBytes 1 0 2 [1, 1] := by
  intro h
  obtain ⟨-, -, -, htokens⟩ := hash_inputs_injective.2.2.1 1 1 0 0 2 2 [1, -1] [1, 1] h
  exact absurd htokens (by decide)

-- No two of the contexts in `C`, and no two of the byte streams in `S`, collide.
-- A digest is shorter than its input, so this is asked of the inputs of a run only.
structure XXH3.CollisionFree (X : XXH3) (C : Set CacheKeyContext) (S : Set (List UInt8)) :
    Prop where
  bits64 : Set.InjOn X.bits64 (contextBytes '' C)
  bits128 : Set.InjOn X.bits128 S

theorem computeContextHash_injOn {X : XXH3} {C : Set CacheKeyContext} {S : Set (List UInt8)}
    (hX : X.CollisionFree C S) {x y : CacheKeyContext} (hx : x ∈ C) (hy : y ∈ C)
    (h : computeContextHash X x = computeContextHash X y) : x = y :=
  contextBytes_injective (hX.bits64 (Set.mem_image_of_mem _ hx) (Set.mem_image_of_mem _ hy) h)

theorem computeContentHash_injOn {X : XXH3} {C : Set CacheKeyContext} {S : Set (List UInt8)}
    (hX : X.CollisionFree C S) {c c' : CacheContextHash} {i i' : UInt32} {n n' : UInt16}
    {ts ts' : List TokenId} (hs : contentBytes c i n ts ∈ S) (hs' : contentBytes c' i' n' ts' ∈ S)
    (h : computeContentHash X c i n ts = computeContentHash X c' i' n' ts') :
    c = c' ∧ i = i' ∧ n = n' ∧ ts = ts' :=
  contentBytes_injective (hX.bits128 hs hs' h)

end KVCache
