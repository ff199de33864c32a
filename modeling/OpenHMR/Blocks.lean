import Mathlib.Data.List.Basic
import Mathlib.Data.List.Range
import Mathlib.Data.Set.Function
import Mathlib.Tactic.SplitIfs

/-!
# Lists in blocks

`blocks n l` are the blocks of `n` elements of a list, and `rest n l` is what is left over at the
end. A list whose length is a multiple of `n` can be cut off in front (`blocks_append`), so that
what is done block by block, with a value that is passed on from each block to the next, can be done
in parts, where what is left over is put in front of the next part (`blocks_append_rest`,
`rest_append_rest`). `cbcEnc` and `cbcDec` are cipher block chaining; the value that is passed on is
the last encrypted block (`cbcEnc_append`, `cbcDec_append`).
-/

namespace Blocks

open List Nat

section Lists

variable {α : Type*} {n : ℕ} {l l' b : List α}

/-- The blocks of `n` elements. -/
def blocks (n : ℕ) (l : List α) : List (List α) :=
  (range (l.length / n)).map fun i => (l.drop (n * i)).take n

@[simp] theorem length_blocks (n : ℕ) (l : List α) : (blocks n l).length = l.length / n := by
  rw [blocks, length_map, length_range]

theorem mul_succ_le {i k : ℕ} (h : i < k / n) : n * i + n ≤ k := by
  have hle : n * (i + 1) ≤ n * (k / n) := mul_le_mul_left n h
  exact hle.trans (mul_div_le k n)

theorem length_of_mem_blocks (h : b ∈ blocks n l) : b.length = n := by
  obtain ⟨i, hi, rfl⟩ := mem_map.1 h
  have hle := mul_succ_le (mem_range.1 hi)
  rw [length_take, length_drop]
  omega

/-- Whole blocks in front. -/
theorem blocks_append (hn : 0 < n) (h : n ∣ l.length) (l' : List α) :
    blocks n (l ++ l') = blocks n l ++ blocks n l' := by
  obtain ⟨k, hk⟩ := h
  have hdiv : l.length / n = k := by rw [hk, Nat.mul_div_cancel_left k hn]
  have hdiv' : (l ++ l').length / n = k + l'.length / n := by
    rw [length_append, hk, mul_add_div hn]
  rw [blocks, hdiv', range_add, map_append, map_map, blocks, blocks, hdiv]
  congr 1
  · refine map_congr_left fun i hi => ?_
    have hle : n * i + n ≤ l.length := mul_succ_le (hdiv ▸ mem_range.1 hi)
    rw [drop_append_of_le_length (by omega), take_append_of_le_length]
    rw [length_drop]
    omega
  · refine map_congr_left fun i _ => ?_
    rw [Function.comp_apply, Nat.mul_add, ← hk, ← drop_drop, drop_left]

theorem blocks_eq_nil (h : l.length < n) : blocks n l = [] := by
  rw [blocks, div_eq_of_lt h]
  rfl

theorem blocks_of_length (hn : 0 < n) (h : l.length = n) : blocks n l = [l] := by
  rw [blocks, h, Nat.div_self hn, range_one, map_singleton, Nat.mul_zero, drop_zero,
    ← h, take_length]

/-- The blocks of a list of blocks. -/
theorem blocks_flatten (hn : 0 < n) : ∀ {bs : List (List α)}, (∀ b ∈ bs, b.length = n) →
    blocks n bs.flatten = bs
  | [], _ => blocks_eq_nil hn
  | b :: bs, h => by
    have hb : b.length = n := h b mem_cons_self
    rw [flatten_cons, blocks_append hn ⟨1, by rw [hb, Nat.mul_one]⟩, blocks_of_length hn hb,
      blocks_flatten hn fun b hb => h b (mem_cons_of_mem _ hb), singleton_append]

theorem flatten_map_range (n : ℕ) (l : List α) : ∀ {k : ℕ}, n * k ≤ l.length →
    ((range k).map fun i => (l.drop (n * i)).take n).flatten = l.take (n * k)
  | 0, _ => by rw [Nat.mul_zero, take_zero]; rfl
  | k + 1, h => by
    have hk : n * k + n ≤ l.length := h
    rw [range_succ, map_append, flatten_append, flatten_map_range n l (by omega),
      map_singleton, flatten_singleton, mul_succ, take_add]

/-- The blocks make up the list without what is left over. -/
theorem flatten_blocks (n : ℕ) (l : List α) :
    (blocks n l).flatten = l.take (n * (l.length / n)) :=
  flatten_map_range n l (mul_div_le _ _)

/-- What is left over does not count. -/
theorem blocks_take (hn : 0 < n) (l : List α) :
    blocks n (l.take (n * (l.length / n))) = blocks n l := by
  rw [← flatten_blocks, blocks_flatten hn fun b hb => length_of_mem_blocks hb]

/-- The last block. -/
theorem drop_flatten (d : List α) : ∀ {bs : List (List α)}, bs ≠ [] → (∀ b ∈ bs, b.length = n) →
    bs.flatten.drop (n * (bs.length - 1)) = bs.getLastD d
  | [b], _, _ => by
    rw [flatten_singleton, length_singleton, Nat.sub_self, Nat.mul_zero, drop_zero]
    rfl
  | b :: b' :: bs, _, h => by
    have ih := drop_flatten b (cons_ne_nil b' bs) fun c hc => h c (mem_cons_of_mem _ hc)
    have hb : b.length = n := h b mem_cons_self
    rw [getLastD_cons, ← ih, flatten_cons, length_cons (a := b), Nat.add_sub_cancel,
      length_cons, Nat.add_sub_cancel, mul_succ, Nat.add_comm, ← drop_drop,
      drop_left' hb]

/-- What is left over after the blocks. -/
def rest (n : ℕ) (l : List α) : List α :=
  l.drop (n * (l.length / n))

theorem length_rest (n : ℕ) (l : List α) : (rest n l).length = l.length % n := by
  rw [rest, length_drop]
  have := div_add_mod l.length n
  omega

theorem flatten_blocks_append_rest (n : ℕ) (l : List α) : (blocks n l).flatten ++ rest n l = l := by
  rw [flatten_blocks, rest, take_append_drop]

theorem length_flatten_blocks (n : ℕ) (l : List α) :
    (blocks n l).flatten.length = n * (l.length / n) := by
  rw [flatten_blocks, length_take_of_le (mul_div_le _ _)]

/-- What is left over is put in front of the next part. -/
theorem blocks_append_rest (hn : 0 < n) (l l' : List α) :
    blocks n (l ++ l') = blocks n l ++ blocks n (rest n l ++ l') := by
  have hdvd : n ∣ (blocks n l).flatten.length := by
    rw [length_flatten_blocks]
    exact Nat.dvd_mul_right _ _
  conv_lhs => rw [← flatten_blocks_append_rest n l, append_assoc]
  rw [blocks_append hn hdvd, blocks_flatten hn fun b hb => length_of_mem_blocks hb]

theorem rest_append (hn : 0 < n) (h : n ∣ l.length) (l' : List α) :
    rest n (l ++ l') = rest n l' := by
  obtain ⟨k, hk⟩ := h
  rw [rest, rest, length_append, hk, mul_add_div hn, Nat.mul_add, ← hk, ← drop_drop, drop_left]

theorem rest_append_rest (hn : 0 < n) (l l' : List α) :
    rest n (l ++ l') = rest n (rest n l ++ l') := by
  have hdvd : n ∣ (blocks n l).flatten.length := by
    rw [length_flatten_blocks]
    exact Nat.dvd_mul_right _ _
  conv_lhs => rw [← flatten_blocks_append_rest n l, append_assoc]
  exact rest_append hn hdvd _

theorem rest_of_lt (h : l.length < n) : rest n l = l := by
  rw [rest, div_eq_of_lt h, Nat.mul_zero, drop_zero]

end Lists

/-! ## Cipher block chaining -/

section Chaining

variable {β : Type*} {xor : β → β → β} {E D : β → β} {S : Set β} {iv b : β} {bs : List β}

/-- Each block is combined with the encrypted block before it, and encrypted. -/
def cbcEnc (xor : β → β → β) (E : β → β) : β → List β → List β
  | _, [] => []
  | iv, b :: bs => E (xor b iv) :: cbcEnc xor E (E (xor b iv)) bs

/-- Each block is decrypted, and combined with the encrypted block before it. -/
def cbcDec (xor : β → β → β) (D : β → β) : β → List β → List β
  | _, [] => []
  | iv, c :: cs => xor (D c) iv :: cbcDec xor D c cs

theorem getLastD_append : ∀ (bs bs' : List β) (b : β),
    (bs ++ bs').getLastD b = bs'.getLastD (bs.getLastD b)
  | [], _, _ => rfl
  | b' :: bs, bs', b => by
    rw [cons_append, getLastD_cons, getLastD_cons, getLastD_append bs bs' b']

@[simp] theorem length_cbcEnc : ∀ (iv : β) (bs : List β), (cbcEnc xor E iv bs).length = bs.length
  | _, [] => rfl
  | iv, b :: bs => congrArg (· + 1) (length_cbcEnc (E (xor b iv)) bs)

@[simp] theorem length_cbcDec : ∀ (iv : β) (cs : List β), (cbcDec xor D iv cs).length = cs.length
  | _, [] => rfl
  | _, c :: cs => congrArg (· + 1) (length_cbcDec c cs)

theorem cbcEnc_append : ∀ (iv : β) (bs bs' : List β), cbcEnc xor E iv (bs ++ bs') =
    cbcEnc xor E iv bs ++ cbcEnc xor E ((cbcEnc xor E iv bs).getLastD iv) bs'
  | _, [], _ => rfl
  | iv, b :: bs, bs' => by
    rw [cons_append, cbcEnc, cbcEnc, cbcEnc_append (E (xor b iv)) bs bs', getLastD_cons,
      cons_append]

theorem cbcDec_append : ∀ (iv : β) (cs cs' : List β), cbcDec xor D iv (cs ++ cs') =
    cbcDec xor D iv cs ++ cbcDec xor D (cs.getLastD iv) cs'
  | _, [], _ => rfl
  | iv, c :: cs, cs' => by
    rw [cons_append, cbcDec, cbcDec, cbcDec_append c cs cs', getLastD_cons, cons_append]

theorem mem_cbcEnc (hE : Set.MapsTo E S S) (hxor : ∀ a ∈ S, ∀ b ∈ S, xor a b ∈ S) :
    ∀ {iv : β} {bs : List β}, iv ∈ S → (∀ b ∈ bs, b ∈ S) → ∀ c ∈ cbcEnc xor E iv bs, c ∈ S
  | _, [], _, _ => fun _ hc => absurd hc not_mem_nil
  | iv, b :: bs, hiv, hbs => by
    have hc : E (xor b iv) ∈ S := hE (hxor b (hbs b mem_cons_self) iv hiv)
    intro c hmem
    rcases mem_cons.1 hmem with rfl | hmem
    · exact hc
    · exact mem_cbcEnc hE hxor hc (fun b hb => hbs b (mem_cons_of_mem _ hb)) c hmem

theorem mem_cbcDec (hD : Set.MapsTo D S S) (hxor : ∀ a ∈ S, ∀ b ∈ S, xor a b ∈ S) :
    ∀ {iv : β} {cs : List β}, iv ∈ S → (∀ c ∈ cs, c ∈ S) → ∀ b ∈ cbcDec xor D iv cs, b ∈ S
  | _, [], _, _ => fun _ hb => absurd hb not_mem_nil
  | iv, c :: cs, hiv, hcs => by
    have hc : c ∈ S := hcs c mem_cons_self
    intro b hmem
    rcases mem_cons.1 hmem with rfl | hmem
    · exact hxor _ (hD hc) _ hiv
    · exact mem_cbcDec hD hxor hc (fun c hc => hcs c (mem_cons_of_mem _ hc)) b hmem

/-- Decryption undoes encryption. -/
theorem cbcDec_cbcEnc (hE : Set.MapsTo E S S) (hDE : Set.LeftInvOn D E S)
    (hxor : ∀ a ∈ S, ∀ b ∈ S, xor a b ∈ S) (hcancel : ∀ a ∈ S, ∀ b ∈ S, xor (xor a b) b = a) :
    ∀ {iv : β} {bs : List β}, iv ∈ S → (∀ b ∈ bs, b ∈ S) →
      cbcDec xor D iv (cbcEnc xor E iv bs) = bs
  | _, [], _, _ => rfl
  | iv, b :: bs, hiv, hbs => by
    have hb : b ∈ S := hbs b mem_cons_self
    have hbx : xor b iv ∈ S := hxor b hb iv hiv
    rw [cbcEnc, cbcDec, hDE hbx, hcancel b hb iv hiv,
      cbcDec_cbcEnc hE hDE hxor hcancel (hE hbx) fun b hb => hbs b (mem_cons_of_mem _ hb)]

end Chaining

end Blocks
