import OpenHMR.AtrFraming

/-!
# What the card before leaves in the answer

`decompress_atr` clears the first four bytes of `atr_info`, the size of a pointer, and it uses
`T1[3]` and `T2[3]` also if the answer has no `TD1` or no `TD2`. The answer is then taken to end
where these bytes, left by an earlier card, say. What is decoded does not depend on them if and only
if the answer has both bytes, or has a length that no left byte makes acceptable
(`decompressAtr_determined_iff`).
-/

namespace OpenHMR

open Option Nat

/-- The two structures agree in what a reader may use : the bytes that the answer announces. -/
structure SameFields (info info' : ScdAtrInfo) : Prop where
  status : info.status = info'.status
  progress : info.progress = info'.progress
  ts : info.ts = info'.ts
  t0 : info.t0 = info'.t0
  t1 : ∀ j : Fin 4, Announces info.t0 j → info.t1 j = info'.t1 j
  t2 : Announces info.t0 3 → ∀ j : Fin 4, Announces (info.t1 3) j → info.t2 j = info'.t2 j
  t3 : Announces info.t0 3 → Announces (info.t1 3) 3 → ∀ j : Fin 4, Announces (info.t2 3) j →
    info.t3 j = info'.t3 j
  history : ∀ k : Fin 16, k.val < (info.t0 &&& 0xF).toNat → info.history k = info'.history k
  tck : info.tck = info'.tck

/-- The same result, whatever `atr_info` holds before. -/
def Independent (a : ScdAtr) : Prop :=
  ∀ info info', Option.Rel SameFields (decompressAtr a info) (decompressAtr a info')

/-- The most bytes that what is left in `T1[3]` and `T2[3]` adds to the answer. -/
def leftBytes (b : ℕ → UInt8) : ℕ :=
  if Announces (b 1) 3 then 4
  else if announcedBelow (b (chainStart b 1 + 3)) 4 = 4 then 9 else 8

/-- The answer has `TD1` and `TD2`, or it is too short, or it is longer than any left byte makes
it. -/
def Determined (a : ScdAtr) : Prop :=
  (Announces (a.byte 1) 3 ∧ Announces (chainByte a.byte 1) 3) ∨ a.length < 3 ∨
    a.length < atrLength a.byte ∨ atrLength a.byte + leftBytes a.byte < a.length

variable {a : ScdAtr} {b : ℕ → UInt8} {info info' : ScdAtrInfo}

/-- The length that `decompress_atr` expects. -/
def storedLength (b : ℕ → UInt8) (info : ScdAtrInfo) : ℕ :=
  storedStart b info + historyLength b + checkBytes (storedT1 b info)

theorem isSome_decompressAtr : (decompressAtr a info).isSome ↔
    isAtrComplete a ≠ 0 ∧ a.length = storedLength a.byte info := by
  rw [decompressAtr_eq, storedLength]
  split_ifs with h
  · simp only [isSome_none, Bool.false_eq_true, false_iff]
    tauto
  · simp only [isSome_some, true_iff]
    tauto

theorem sameFields_of_stored (h1 : storedT1 a.byte info = storedT1 a.byte info')
    (h2 : storedT2 a.byte info = storedT2 a.byte info') :
    Option.Rel SameFields (decompressAtr a info) (decompressAtr a info') := by
  have hgroup : ∀ {t : UInt8} {id : ℕ} {g g' : Fin 4 → UInt8} {j : Fin 4}, Announces t j →
      storedGroup a t id g j = storedGroup a t id g' j := fun h => (if_pos h).trans (if_pos h).symm
  have htd2 : storedGroup a (storedT1 a.byte info') (chainStart a.byte 1) info.t2 3 =
      storedT2 a.byte info' := by
    rw [← h1, ← h2]
    rfl
  rw [decompressAtr_eq, decompressAtr_eq, storedStart, storedStart, h1, h2]
  split_ifs with h
  · exact .none
  · refine .some ⟨rfl, rfl, rfl, rfl, fun j hj => hgroup hj, fun _ j hj => hgroup ?_,
      fun _ _ j hj => hgroup (htd2 ▸ hj), fun k hk => (if_pos hk).trans (if_pos hk).symm, rfl⟩
    rw [← h1]
    exact hj

/-! ## Answers without `TD1` or `TD2` -/

theorem announcedBelow_le : ∀ (t : UInt8) (j : ℕ), announcedBelow t j ≤ j
  | _, 0 => le_refl 0
  | t, j + 1 => Nat.add_le_add (announcedBelow_le t j) (by split <;> omega)

theorem checkBytes_le (t : UInt8) : checkBytes t ≤ 1 := by
  unfold checkBytes
  split <;> omega

/-- Without `TD1`. -/
theorem storedLength_of_not_td1 (h : ¬Announces (b 1) 3) (info : ScdAtrInfo) :
    storedLength b info = atrLength b + (announcedBelow (info.t1 3) 4 +
      announcedBelow (storedT2 b info) 4 + checkBytes (info.t1 3)) := by
  have h1 : storedT1 b info = info.t1 3 := if_neg h
  have hc1 : chainByte b 1 = 0 := if_neg h
  have hc2 : chainByte b 2 = 0 := by
    rw [chainByte, hc1]
    rfl
  have hatr : atrLength b = chainStart b 1 + historyLength b := by
    simp only [atrLength, NoCheckByte, chainStart, hc1, hc2]
    rfl
  rw [storedLength, storedStart, h1, hatr]
  omega

/-- With `TD1`, but without `TD2`. -/
theorem storedLength_of_td1 (h : Announces (b 1) 3) (h' : ¬Announces (chainByte b 1) 3)
    (info : ScdAtrInfo) : storedLength b info = atrLength b + announcedBelow (info.t2 3) 4 := by
  have h1 : storedT1 b info = chainByte b 1 := (if_pos h).trans (if_pos h).symm
  have h2 : storedT2 b info = info.t2 3 := by
    rw [storedT2, h1]
    exact if_neg h'
  have hc2 : chainByte b 2 = 0 := if_neg h'
  have hatr : atrLength b = chainStart b 1 + announcedBelow (chainByte b 1) 4 +
      historyLength b + checkBytes (chainByte b 1) := by
    rw [atrLength, chainStart, chainStart, hc2]
    rfl
  rw [storedLength, storedStart, h1, h2, hatr]
  omega

/-- The left bytes make the answer longer, and not by more than `leftBytes`. -/
theorem storedLength_bounds (h : ¬(Announces (b 1) 3 ∧ Announces (chainByte b 1) 3))
    (info : ScdAtrInfo) :
    atrLength b ≤ storedLength b info ∧ storedLength b info ≤ atrLength b + leftBytes b := by
  by_cases h1 : Announces (b 1) 3
  · rw [storedLength_of_td1 h1 fun h2 => h ⟨h1, h2⟩, leftBytes, if_pos h1]
    have := announcedBelow_le (info.t2 3) 4
    omega
  · rw [storedLength_of_not_td1 h1, leftBytes, if_neg h1, storedT2,
      show storedT1 b info = info.t1 3 from if_neg h1]
    have hle := announcedBelow_le (info.t1 3) 3
    have hcheck := checkBytes_le (info.t1 3)
    by_cases h3 : Announces (info.t1 3) 3
    · have hsucc := announcedBelow_three_succ h3
      have hy := announcedBelow_le (b (chainStart b 1 + announcedBelow (info.t1 3) 3)) 4
      rw [if_pos h3]
      -- Only four bytes of the second group leave room for the byte that `leftBytes` looks at.
      rcases lt_or_eq_of_le hle with hlt | heq
      · split <;> omega
      · rw [heq] at hy ⊢
        split <;> omega
    · have hsum : announcedBelow (info.t1 3) 4 = announcedBelow (info.t1 3) 3 + 0 := by
        rw [announcedBelow, if_neg h3]
      have hy := announcedBelow_le (info.t2 (Fin.last 3)) 4
      rw [if_neg h3]
      split <;> omega

theorem isAtrComplete_ne_zero (h : 3 ≤ a.length) (hle : atrLength a.byte ≤ a.length) :
    isAtrComplete a ≠ 0 := by
  have h1 := chainStart_le_atrLength a.byte (show 1 ≤ 3 by omega)
  have h2 := chainStart_le_atrLength a.byte (show 2 ≤ 3 by omega)
  rw [isAtrComplete_eq]
  split_ifs <;> omega

/-- Left bytes for each number of added bytes, if the answer has no `TD1`. -/
def leftT1 (d : ℕ) : UInt8 := [0, 0, 0, 0, 0, 0x01, 0x11, 0x31, 0x71, 0xF1].getD d 0

@[inherit_doc leftT1] def leftT2 (d : ℕ) : UInt8 := [0, 0x10, 0x30, 0x70].getD d 0xF0

theorem left_spec : ∀ d < 9, ¬Announces (leftT1 d) 3 ∧
    announcedBelow (leftT1 d) 4 + announcedBelow (leftT2 d) 4 + checkBytes (leftT1 d) = d := by
  decide +kernel

/-- Every length is stored, for some left bytes. -/
theorem exists_storedLength (h : ¬(Announces (b 1) 3 ∧ Announces (chainByte b 1) 3)) {d : ℕ}
    (hd : d ≤ leftBytes b) : ∃ info, storedLength b info = atrLength b + d := by
  refine ⟨{ ScdAtrInfo.zero with t1 := fun _ => leftT1 d, t2 := fun _ => leftT2 d }, ?_⟩
  by_cases h1 : Announces (b 1) 3
  · rw [leftBytes, if_pos h1] at hd
    have hspec : ∀ d ≤ 4, announcedBelow (leftT2 d) 4 = d := by decide +kernel
    rw [storedLength_of_td1 h1 fun h2 => h ⟨h1, h2⟩, hspec d hd]
  · rw [leftBytes, if_neg h1] at hd
    have hstored : ∀ info, storedT1 b info = info.t1 3 := fun _ => if_neg h1
    rw [storedLength_of_not_td1 h1, storedT2, hstored]
    dsimp only
    rcases lt_or_ge d 9 with hlt | hge
    · rw [if_neg (left_spec d hlt).1, (left_spec d hlt).2]
    · split at hd
      · obtain rfl : d = 9 := by omega
        rename_i hfour
        rw [if_pos (by decide +kernel)]
        exact congrArg (fun n => atrLength b + (4 + n + 1)) hfour
      · omega

/-- What `decompress_atr` returns and stores does not depend on the card before if and only if the
answer has `TD1` and `TD2` or no left byte can make it acceptable. -/
theorem decompressAtr_determined_iff (a : ScdAtr) : Independent a ↔ Determined a := by
  by_cases hboth : Announces (a.byte 1) 3 ∧ Announces (chainByte a.byte 1) 3
  · refine iff_of_true (fun info info' => ?_) (Or.inl hboth)
    have h1 : ∀ info, storedT1 a.byte info = chainByte a.byte 1 := fun _ =>
      (if_pos hboth.1).trans (if_pos hboth.1).symm
    refine sameFields_of_stored ((h1 _).trans (h1 _).symm) ?_
    rw [storedT2, storedT2, h1, h1, if_pos hboth.2, if_pos hboth.2]
  · constructor
    · intro h
      by_contra hdet
      simp only [Determined, hboth, false_or, not_or, not_lt] at hdet
      obtain ⟨hthree, hle, hge⟩ := hdet
      have hcomplete := isAtrComplete_ne_zero hthree hle
      have hfour : 4 ≤ leftBytes a.byte := by
        unfold leftBytes
        split_ifs <;> omega
      obtain ⟨d, hd⟩ := Nat.exists_eq_add_of_le hle
      obtain ⟨info, hinfo⟩ := exists_storedLength hboth (d := d) (by omega)
      obtain ⟨info', hinfo'⟩ := exists_storedLength hboth (d := if d = 0 then 1 else 0)
        (by split <;> omega)
      obtain ⟨x, hx⟩ := isSome_iff_exists.1
        (isSome_decompressAtr.2 ⟨hcomplete, hd.trans hinfo.symm⟩)
      have hnone : decompressAtr a info' = none := by
        rw [← not_isSome_iff_eq_none, isSome_decompressAtr, hinfo']
        split <;> omega
      have hrel := h info info'
      rw [hx, hnone] at hrel
      cases hrel
    · rintro (hb | hlen) info info'
      · exact absurd hb hboth
      · have hnone : ∀ info, decompressAtr a info = none := fun info => by
          rw [← not_isSome_iff_eq_none, isSome_decompressAtr]
          rintro ⟨hcomplete, heq⟩
          obtain ⟨hle, hge⟩ := storedLength_bounds hboth info
          rcases hlen with hthree | hlt | hgt
          · exact hcomplete (isAtrComplete_of_lt_three hthree)
          · omega
          · omega
        rw [hnone, hnone]
        exact .none

/-- The answer 3B 01 41 is rejected after a card that has left 10 in `T1[3]`. -/
theorem decompressAtr_of_left_byte :
    ¬Independent (.ofBytes [0x3B, 0x01, 0x41] (by decide)) := by
  intro h
  have hrel := h .zero { ScdAtrInfo.zero with t1 := fun _ => 0x10 }
  have hnone : decompressAtr (.ofBytes [0x3B, 0x01, 0x41] (by decide))
      { ScdAtrInfo.zero with t1 := fun _ => 0x10 } = none := by decide +kernel
  have hsome : (decompressAtr (.ofBytes [0x3B, 0x01, 0x41] (by decide)) .zero).isSome := by
    decide +kernel
  obtain ⟨x, hx⟩ := isSome_iff_exists.1 hsome
  rw [hx, hnone] at hrel
  cases hrel

end OpenHMR
