import OpenHMR.BigIntArith

/-!
# RSA signatures (`drivers/mcp/rsa.c`)

`rsa_verify` raises the signature to the public exponent and strips the padding of the result : a
header byte `0x01` or `0x1F`, bytes `0xFF`, and a byte 0, above the payload. `rsa_strip` works on
the bytes of the words in place, with two scans from above. It finds the padding if there is one
(`rsaStrip_iff_padded`), and it clears bytes 0 and `0xFF` only (`rsaStrip_byte`), so the header
byte stays. `rsa_verify` does not look at the result of `rsa_strip`.

The byte above the words in use is read too. If all words are in use it is outside of the array :
the words of a `BI` from `biMaxlen` on are what stands behind it in memory, and can be anything.
-/

namespace OpenHMR

open Nat

open Limbs (word len)

/-! ## Bytes -/

namespace BI

/-- `ptr[i]` for the bytes `ptr` of the words. The lowest byte of a word is the first. -/
def byte (p : BI) (i : ℕ) : ℕ :=
  word 256 (p.value (i / 4)) (i % 4)

/-- `memset(&ptr[i], 0, n)`. -/
def clearBytes (p : BI) (i n : ℕ) : BI :=
  { p with
    value := fun j => Limbs.value 256
      (fun k => if i ≤ 4 * j + k ∧ 4 * j + k < i + n then 0 else word 256 (p.value j) k) 4
    value_lt := fun j => by
      refine Limbs.value_lt (B := 256) fun k _ => ?_
      split_ifs
      exacts [by decide, Limbs.word_lt (by decide) _ _] }

theorem clearBytes_byte (p : BI) (i n j : ℕ) :
    (p.clearBytes i n).byte j = if i ≤ j ∧ j < i + n then 0 else p.byte j := by
  have hj : 4 * (j / 4) + j % 4 = j := div_add_mod j 4
  rw [byte, clearBytes, Limbs.word_value ?_ (mod_lt _ (by decide)), hj, byte]
  intro k
  split_ifs
  exacts [by decide, Limbs.word_lt (by decide) _ _]

theorem byte_withLength (p : BI) (n i : ℕ) : ({ p with length := n } : BI).byte i = p.byte i := rfl

/-- The array holds the number `v` in normal form. -/
structure Holds (p : BI) (v : ℕ) : Prop where
  sign : p.sign = 1
  length : p.length = len (2 ^ 32) v
  length_le : p.length ≤ biMaxlen
  value : ∀ i, i < biMaxlen → p.value i = word (2 ^ 32) v i

theorem Normalized.holds {p : BI} (h : p.Normalized) : p.Holds p.val where
  sign := h.sign
  length := congrArg BI.length h.eq_ofNat
  length_le := h.length_le
  value := fun i _ => congrFun (congrArg BI.value h.eq_ofNat) i

/-- The bytes of the array are those of the number. -/
theorem Holds.byte {p : BI} {v i : ℕ} (h : p.Holds v) (hi : i < 4 * biMaxlen) :
    p.byte i = word 256 v i := by
  have hword : word 256 (word (256 ^ 4) v (i / 4)) (i % 4) = word 256 v (4 * (i / 4) + i % 4) :=
    Limbs.word_word 256 4 v (i / 4) (mod_lt i (by decide))
  rw [div_add_mod] at hword
  rw [BI.byte, h.value _ (by omega)]
  exact hword

end BI

/-! ## The scans -/

/-- A loop over the bytes below `n` from above : it ends at a byte with `stop`, goes on at a byte
with `skip`, and fails at any other. -/
def scan (f : ℕ → ℕ) (stop skip : ℕ → Bool) : ℕ → Option ℕ
  | 0 => none
  | n + 1 => if stop (f n) then some n else if skip (f n) then scan f stop skip n else none

variable {i start tail v : ℕ} {bi : BI}

/-- Where the scan stops : all bytes above are skipped. -/
theorem scan_eq_some_iff {f : ℕ → ℕ} {stop skip : ℕ → Bool}
    (hdisj : ∀ b, skip b = true → stop b = false) : ∀ {n : ℕ},
    scan f stop skip n = some i ↔
      i < n ∧ stop (f i) = true ∧ ∀ j, i < j → j < n → skip (f j) = true
  | 0 => by simp [scan]
  | n + 1 => by
    rw [scan]
    split_ifs with hstop hskip
    · constructor
      · rintro ⟨⟩
        exact ⟨lt_succ_self _, hstop, fun j hj hjn => absurd hjn (by omega)⟩
      · rintro ⟨hin, -, hall⟩
        rcases lt_or_eq_of_le (le_of_lt_succ hin) with hlt | rfl
        · have := hdisj _ (hall n hlt (lt_succ_self n))
          rw [hstop] at this
          exact absurd this (by decide)
        · rfl
    · rw [scan_eq_some_iff hdisj]
      constructor
      · rintro ⟨hin, hi, hall⟩
        refine ⟨lt_succ_of_lt hin, hi, fun j hij hjn => ?_⟩
        rcases lt_or_eq_of_le (le_of_lt_succ hjn) with hlt | rfl
        · exact hall j hij hlt
        · exact hskip
      · rintro ⟨hin, hi, hall⟩
        have hne : i ≠ n := by
          rintro rfl
          exact hstop hi
        exact ⟨by omega, hi, fun j hij hjn => hall j hij (lt_succ_of_lt hjn)⟩
    · constructor
      · rintro ⟨⟩
      · rintro ⟨hin, hi, hall⟩
        rcases lt_or_eq_of_le (le_of_lt_succ hin) with hlt | rfl
        · exact absurd (hall n hlt (lt_succ_self n)) hskip
        · exact absurd hi hstop

/-! ## `rsa_strip` and `rsa_verify` -/

/-- The byte that the padding starts with. -/
def isHeader (b : ℕ) : Bool :=
  b == 0x1F || b == 0x01

/-- `header_start`. -/
def headerStart (bi : BI) : Option ℕ :=
  scan bi.byte isHeader (· == 0x00) (bi.length * 4 + 1)

/-- `header_tail`, for the bytes below `header_start`. -/
def headerTail (bi : BI) (start : ℕ) : Option ℕ :=
  scan bi.byte (· == 0x00) (· == 0xFF) start

/-- `rsa_strip` : the result, and what is left in `bi`. -/
def rsaStrip (bi : BI) : ℤ × BI :=
  match headerStart bi with
  | none => (-1, bi)
  | some start =>
    match headerTail bi start with
    | none => (-1, bi)
    | some tail =>
      (0, { bi.clearBytes tail (start - tail) with
        length := if tail % 4 ≠ 0 then tail / 4 + 1 else tail / 4 })

/-- `memcpy(dst, src, sizeof(BI))`. -/
def copyBI (dst src : BI) : BI where
  sign := src.sign
  length := src.length
  value := fun i => if i < biMaxlen then src.value i else dst.value i
  value_lt := fun i => by
    split_ifs
    exacts [src.value_lt i, dst.value_lt i]

/-- `rsa_verify` : the result, and what is left in `dgst`. A pointer is `none` if it is `NULL`. -/
def rsaVerify (expMod : BI → BI → BI → BI) (signature pubExp mod dgst : Option BI) :
    ℤ × Option BI :=
  match signature, pubExp, mod, dgst with
  | some s, some e, some m, some d => (0, some (copyBI d (rsaStrip (expMod s e m)).2))
  | _, _, _, _ => (-1, dgst)

/-! ## The padding -/

/-- The bytes of `v` from the leading one down are a header byte, at `start`, bytes `0xFF`, and a
byte 0, at `tail`. The payload is below, `v % 256 ^ tail`. -/
structure Padded (v start tail : ℕ) : Prop where
  above : ∀ i, start < i → word 256 v i = 0
  header : word 256 v start = 0x01 ∨ word 256 v start = 0x1F
  lt : tail < start
  filler : ∀ i, tail < i → i < start → word 256 v i = 0xFF
  zero : word 256 v tail = 0

theorem headerStart_eq_some_iff : headerStart bi = some start ↔
    start ≤ bi.length * 4 ∧ (bi.byte start = 0x01 ∨ bi.byte start = 0x1F) ∧
      ∀ j, start < j → j ≤ bi.length * 4 → bi.byte j = 0 := by
  rw [headerStart, scan_eq_some_iff]
  · simp only [isHeader, Bool.or_eq_true, beq_iff_eq, Nat.lt_succ_iff, or_comm]
  · intro b hb
    rw [beq_iff_eq.1 hb]
    rfl

theorem headerTail_eq_some_iff : headerTail bi start = some tail ↔
    tail < start ∧ bi.byte tail = 0 ∧ ∀ j, tail < j → j < start → bi.byte j = 0xFF := by
  rw [headerTail, scan_eq_some_iff]
  · simp only [beq_iff_eq]
  · intro b hb
    rw [beq_iff_eq.1 hb]
    rfl

theorem rsaStrip_eq_of_found (hstart : headerStart bi = some start)
    (htail : headerTail bi start = some tail) :
    rsaStrip bi = (0, { bi.clearBytes tail (start - tail) with
      length := if tail % 4 ≠ 0 then tail / 4 + 1 else tail / 4 }) := by
  simp only [rsaStrip, hstart, htail]

/-- Either the padding is found, or nothing is done. -/
theorem rsaStrip_cases (bi : BI) :
    rsaStrip bi = (-1, bi) ∨
      ∃ start tail, headerStart bi = some start ∧ headerTail bi start = some tail := by
  rcases hstart : headerStart bi with _ | start
  · exact .inl (by simp only [rsaStrip, hstart])
  · rcases htail : headerTail bi start with _ | tail
    · exact .inl (by simp only [rsaStrip, hstart, htail])
    · exact .inr ⟨start, tail, rfl, htail⟩

/-- The scans find the padding of the number. -/
theorem headers_eq_some_iff (h : bi.Holds v) (hlen : bi.length < biMaxlen) :
    headerStart bi = some start ∧ headerTail bi start = some tail ↔ Padded v start tail := by
  have hmax : biMaxlen = 129 := rfl
  have hbyte : ∀ i, i ≤ bi.length * 4 → bi.byte i = word 256 v i := fun i hi =>
    h.byte (by omega)
  have habove : ∀ i, bi.length * 4 ≤ i → word 256 v i = 0 := by
    intro i hi
    have hlt : v < 256 ^ (bi.length * 4) := by
      have := Limbs.lt_pow_len (B := 2 ^ 32) (by decide) v
      rwa [← h.length, show (2 : ℕ) ^ 32 = 256 ^ 4 from rfl, ← pow_mul, mul_comm] at this
    rw [word, div_eq_of_lt (hlt.trans_le (Nat.pow_le_pow_right (by decide) hi)), zero_mod]
  rw [headerStart_eq_some_iff, headerTail_eq_some_iff]
  constructor
  · rintro ⟨⟨hle, hheader, hzero⟩, hlt, htail, hfill⟩
    rw [hbyte start hle] at hheader
    rw [hbyte tail (by omega)] at htail
    refine ⟨fun i hi => ?_, hheader, hlt, fun i hti his => ?_, htail⟩
    · rcases le_total i (bi.length * 4) with hi4 | hi4
      · rw [← hbyte i hi4, hzero i hi hi4]
      · exact habove i hi4
    · rw [← hbyte i (by omega), hfill i hti his]
  · rintro ⟨hzero, hheader, hlt, hfill, htail⟩
    have hle : start < bi.length * 4 := by
      by_contra hge
      have := habove start (by omega)
      omega
    rw [hbyte start hle.le, hbyte tail (by omega)]
    exact ⟨⟨hle.le, hheader, fun j hj hj4 => (hbyte j hj4).trans (hzero j hj)⟩, hlt, htail,
      fun j htj hjs => (hbyte j (by omega)).trans (hfill j htj hjs)⟩

/-- `rsa_strip` succeeds if the number is padded, and returns -1 otherwise. -/
theorem rsaStrip_iff_padded (h : bi.Holds v) (hlen : bi.length < biMaxlen) :
    ((rsaStrip bi).1 = 0 ↔ ∃ start tail, Padded v start tail) ∧
      ((rsaStrip bi).1 = -1 ↔ ¬∃ start tail, Padded v start tail) := by
  simp only [← headers_eq_some_iff h hlen]
  rcases rsaStrip_cases bi with hfail | hfound
  · have hnone : ¬∃ start tail, headerStart bi = some start ∧ headerTail bi start = some tail := by
      rintro ⟨start, tail, hstart, htail⟩
      rw [rsaStrip_eq_of_found hstart htail] at hfail
      exact absurd (congrArg Prod.fst hfail) (show (0 : ℤ) ≠ -1 by decide)
    rw [hfail]
    exact ⟨iff_of_false (show (-1 : ℤ) ≠ 0 by decide) hnone, iff_of_true rfl hnone⟩
  · have ⟨start, tail, hstart, htail⟩ := hfound
    rw [rsaStrip_eq_of_found hstart htail]
    exact ⟨iff_of_true rfl hfound, iff_of_false (show (0 : ℤ) ≠ -1 by decide) (not_not.2 hfound)⟩

/-- `rsa_strip` changes no other bytes than 0 and `0xFF`. -/
theorem rsaStrip_byte (bi : BI) (h0 : bi.byte i ≠ 0) (hff : bi.byte i ≠ 0xFF) :
    (rsaStrip bi).2.byte i = bi.byte i := by
  rcases rsaStrip_cases bi with hfail | ⟨start, tail, hstart, htail⟩
  · rw [hfail]
  · obtain ⟨hlt, htail0, hfill⟩ := headerTail_eq_some_iff.1 htail
    have hout : ¬(tail ≤ i ∧ i < tail + (start - tail)) := by
      rintro ⟨hti, his⟩
      rcases lt_or_eq_of_le hti with hlt' | rfl
      · exact hff (hfill i hlt' (by omega))
      · exact h0 htail0
    rw [rsaStrip_eq_of_found hstart htail, BI.byte_withLength, BI.clearBytes_byte, if_neg hout]

theorem copyBI_byte (dst src : BI) (hi : i < 4 * biMaxlen) :
    (copyBI dst src).byte i = src.byte i := by
  have hword : i / 4 < biMaxlen := by omega
  exact congrArg (word 256 · (i % 4)) (if_pos hword)

/-! ## Verification -/

/-- The property of `rsa_verify` : if the result is 0, the value `s ^ e % m` is padded, and `dgst`
is the payload in normal form. -/
def Verifies (signature pubExp mod : Option BI) (result : ℤ × Option BI) : Prop :=
  result.1 = 0 → ∃ s ∈ signature, ∃ e ∈ pubExp, ∃ m ∈ mod, ∃ d ∈ result.2, ∃ start tail,
    Padded (s.val ^ e.val % m.val) start tail ∧
      d.Holds (s.val ^ e.val % m.val % 256 ^ tail)

/-- The header byte is left, so what `rsa_verify` gives is never the payload. -/
theorem not_holds_payload {res : BI} (hres : res.Holds v) (hpad : Padded v start tail) (d : BI) :
    ¬(copyBI d (rsaStrip res).2).Holds (v % 256 ^ tail) := by
  intro hd
  have hstart : start < 4 * biMaxlen := by
    by_contra hge
    have hlt : v < 256 ^ (4 * biMaxlen) := by
      have hle : (2 ^ 32) ^ res.length ≤ (2 ^ 32) ^ biMaxlen :=
        Nat.pow_le_pow_right (by decide) hres.length_le
      have hv := (Limbs.lt_pow_len (B := 2 ^ 32) (by decide) v).trans_le (hres.length ▸ hle)
      rwa [show (2 : ℕ) ^ 32 = 256 ^ 4 from rfl, ← pow_mul] at hv
    have hheader := hpad.header
    rw [word, div_eq_of_lt (hlt.trans_le (Nat.pow_le_pow_right (by decide) (by omega)))]
      at hheader
    omega
  have hbyte := hres.byte hstart
  have hheader := hpad.header
  have hleft : (copyBI d (rsaStrip res).2).byte start = word 256 v start := by
    rw [copyBI_byte d _ hstart, rsaStrip_byte res (by omega) (by omega), hbyte]
  have hpayload : v % 256 ^ tail < 256 ^ start :=
    (mod_lt v (Nat.pow_pos (by decide))).trans_le
      (Nat.pow_le_pow_right (by decide) hpad.lt.le)
  rw [hd.byte hstart, word, div_eq_of_lt hpayload] at hleft
  omega

/-- `rsa_verify` has the property only if an argument is missing. -/
theorem verifies_rsaVerify_iff (expMod : BI → BI → BI → BI) (signature pubExp mod dgst : Option BI)
    (hexp : ∀ s ∈ signature, ∀ e ∈ pubExp, ∀ m ∈ mod,
      (expMod s e m).Holds (s.val ^ e.val % m.val)) :
    Verifies signature pubExp mod (rsaVerify expMod signature pubExp mod dgst) ↔
      signature = none ∨ pubExp = none ∨ mod = none ∨ dgst = none := by
  rcases signature with _ | s <;> rcases pubExp with _ | e <;> rcases mod with _ | m <;>
    rcases dgst with _ | d
  case some.some.some.some =>
    refine iff_of_false (fun hok => ?_) (by simp)
    obtain ⟨s', hs, e', he, m', hm, d', hd, start, tail, hpad, hholds⟩ := hok rfl
    obtain rfl : s = s' := Option.some.inj hs
    obtain rfl : e = e' := Option.some.inj he
    obtain rfl : m = m' := Option.some.inj hm
    obtain rfl : _ = d' := Option.some.inj hd
    exact not_holds_payload (hexp s rfl e rfl m rfl) hpad d hholds
  all_goals exact iff_of_true (fun h => absurd (show (-1 : ℤ) = 0 from h) (by decide)) (by simp)

theorem holds_ofNat {a : ℕ} (ha : a < 2 ^ 32) : (BI.ofNat a).Holds a := by
  have hlen : len (2 ^ 32) a ≤ 1 := Limbs.len_le_of_lt_pow le_rfl (by rwa [pow_one])
  have hnorm : (BI.ofNat a).Normalized := BI.normalized_ofNat (hlen.trans (by decide))
  simpa only [BI.val_ofNat] using hnorm.holds

/-- A number with padding, and one whose leading byte is no header byte. -/
theorem exists_padded : (∃ start tail, Padded 0x01ff0005 start tail) ∧
    ¬∃ start tail, Padded 0x02ff0005 start tail :=
  ⟨(rsaStrip_iff_padded (holds_ofNat (by decide)) (by decide)).1.1 (by decide +kernel),
    (rsaStrip_iff_padded (holds_ofNat (by decide)) (by decide)).2.1 (by decide +kernel)⟩

/-- The signature 2 with the exponent 1 and the modulus 5. -/
theorem verifies_rsaVerify_iff_two :
    ¬Verifies (some (.ofNat 2)) (some (.ofNat 1)) (some (.ofNat 5))
      (rsaVerify (fun s e m => .ofNat (s.val ^ e.val % m.val)) (some (.ofNat 2))
        (some (.ofNat 1)) (some (.ofNat 5)) (some .init)) := by
  refine fun hok => absurd ((verifies_rsaVerify_iff (fun s e m => .ofNat (s.val ^ e.val % m.val))
    _ _ _ _ ?_).1 hok) (by simp)
  rintro s ⟨⟩ e ⟨⟩ m ⟨⟩
  refine holds_ofNat ?_
  rw [BI.val_ofNat, BI.val_ofNat, BI.val_ofNat]
  decide

/-- A value without padding is accepted, and what is left of a value with padding, `0x01ff00aa`, has
the header byte. -/
theorem rsaVerify_forges :
    (∃ d : BI, rsaVerify (fun s e m => .ofNat (s.val ^ e.val % m.val)) (some (.ofNat 2))
        (some (.ofNat 1)) (some (.ofNat 5)) (some .init) = (0, some d) ∧
      ¬∃ start tail, Padded 2 start tail) ∧
    ∃ d : BI, rsaVerify (fun s e m => .ofNat (s.val ^ e.val % m.val)) (some (.ofNat 0x01ff00aa))
        (some (.ofNat 1)) (some (.ofNat 0xffffffff)) (some .init) = (0, some d) ∧
      Padded 0x01ff00aa 3 1 ∧ d.value 0 = 0x010000aa := by
  refine ⟨⟨_, rfl, ?_⟩, _, rfl, ⟨fun i hi => ?_, .inl (by decide), by decide, fun i h1 h3 => ?_,
    by decide⟩, by decide +kernel⟩
  · rintro ⟨start, tail, hpad⟩
    have hlt : 2 < 256 ^ start :=
      lt_of_lt_of_le (by decide) (Nat.pow_le_pow_right (by decide) (one_le_of_lt hpad.lt))
    have hheader := hpad.header
    rw [word, div_eq_of_lt hlt] at hheader
    omega
  · have hlt : 0x01ff00aa < 256 ^ i :=
      lt_of_lt_of_le (by decide) (Nat.pow_le_pow_right (by decide) hi)
    rw [word, div_eq_of_lt hlt]
  · obtain rfl : i = 2 := by omega
    decide

end OpenHMR
