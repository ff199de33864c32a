import Mathlib.Data.List.GetD
import OpenHMR.EfuseLog

/-!
# The two readers of the efuse

`ReadEFuse` puts each word of a packet in its place as it reads it. `efuse_PgPacketRead` collects
the words of a packet one after the other in `tmpdata`, and `efuse_WordEnableDataRead` then takes
word `w` from place `w` of `tmpdata`, whatever words the packet has; what is at this place may be
left from an older packet. It also leaves out a packet whose words are blank. Both follow the same
packets, from header to header (`Packets`), and they agree on a section if and only if what is found
at these places is what was meant (`WordsInPlace`).
-/

namespace OpenHMR

open List Nat

variable {fuse : ℕ → UInt8} {o : UInt8}

/-! ## Packets in the memory -/

/-- From `addr` on the efuse holds packets with their headers at these addresses, and is blank after
them. The packets end before the last byte of the efuse. -/
def Packets (fuse : ℕ → UInt8) : ℕ → List ℕ → Prop
  | addr, [] => addr < efuseMaxSize ∧ ∀ i ≥ addr, fuse i = 0xFF
  | addr, a :: as => a = addr ∧ fuse a ≠ 0xFF ∧
    Packets fuse (addr + calculateWordCnts (headerWordEn (fuse a)) * 2 + 1) as

/-- The word at place `i` of the packet with its header at `a`. -/
def packetWord (fuse : ℕ → UInt8) (a i : ℕ) : UInt8 × UInt8 :=
  (fuse (a + 1 + 2 * i), fuse (a + 1 + (2 * i + 1)))

/-- The word `w` in the newest packet that has it. The packets are given from the newest one on. -/
def newestWord (fuse : ℕ → UInt8) (w : Fin 4) : List ℕ → UInt8 × UInt8
  | [] => blankWord
  | a :: as => if WordEnabled (headerWordEn (fuse a)) w then
      packetWord fuse a ((enabledWords (headerWordEn (fuse a))).idxOf w)
    else newestWord fuse w as

/-- What the newest packet of more than `i` words has at place `i`. -/
def placedWord (fuse : ℕ → UInt8) (i : ℕ) : List ℕ → UInt8 × UInt8
  | [] => blankWord
  | a :: as => if i < calculateWordCnts (headerWordEn (fuse a)) then packetWord fuse a i
    else placedWord fuse i as

/-- The packets without those that are newer than the newest one with the word `w` and with data. -/
def fromData (fuse : ℕ → UInt8) (w : Fin 4) : List ℕ → List ℕ
  | [] => []
  | a :: as =>
    if WordEnabled (headerWordEn (fuse a)) w ∧
        ¬DataEmpty fuse a (calculateWordCnts (headerWordEn (fuse a))) then a :: as
    else fromData fuse w as

/-- The packets of a section, from the newest one on. -/
def sectionPackets (fuse : ℕ → UInt8) (o : UInt8) (as : List ℕ) : List ℕ :=
  (as.filter fun a => headerOffset (fuse a) = o).reverse

/-- Each word of the section is, in the newest packet that has it, the one that is found at the
place of its number. -/
def WordsInPlace (fuse : ℕ → UInt8) (o : UInt8) (as : List ℕ) : Prop :=
  ∀ w, newestWord fuse w (sectionPackets fuse o as) =
    placedWord fuse w (fromData fuse w (sectionPackets fuse o as))

theorem sectionPackets_cons (a : ℕ) (as ps : List ℕ) :
    sectionPackets fuse o (a :: as) ++ ps =
      sectionPackets fuse o as ++ if headerOffset (fuse a) = o then a :: ps else ps := by
  unfold sectionPackets
  by_cases h : headerOffset (fuse a) = o <;> simp [h]

theorem length_lt_of_packets : ∀ {as : List ℕ} {addr : ℕ}, Packets fuse addr as →
    addr + as.length < efuseMaxSize
  | [], _, h => h.1
  | a :: as, addr, ⟨_, _, h⟩ => by
    have := length_lt_of_packets h
    rw [length_cons]
    omega

/-! ## Packet by packet -/

/-- `efuse_PgPacketRead`, after the packets `ps` of the section. -/
theorem pgPacketReadFrom_packets : ∀ (as ps : List ℕ) {addr last n : ℕ} {tmpdata : ℕ → UInt8}
    {data : PgData}, as.length < n → Packets fuse addr as →
    (∀ w : Fin 4, (tmpdata (2 * w), tmpdata (2 * w + 1)) = placedWord fuse w ps) →
    (∀ w, data w = placedWord fuse w (fromData fuse w ps)) → ∀ w,
      (pgPacketReadFrom fuse o n addr last tmpdata data).1 w =
        placedWord fuse w (fromData fuse w (sectionPackets fuse o as ++ ps))
  | [], ps, addr, _, n + 1, _, data, _, hp, _, hdata, w => by
    have hblank : fuse addr = 0xFF := hp.2 addr (le_refl addr)
    rw [pgPacketReadFrom, if_neg (not_le.2 hp.1), if_pos hblank]
    exact hdata w
  | a :: as, ps, _, _, n + 1, tmpdata, data, hn, ⟨rfl, hheader, hp⟩, htmp, hdata, w => by
    have hlt := length_lt_of_packets hp
    have hn' : as.length < n := lt_of_succ_lt_succ hn
    rw [pgPacketReadFrom, if_neg (by omega), if_neg hheader, sectionPackets_cons]
    by_cases ho : headerOffset (fuse a) = o
    · rw [if_pos ho, if_pos ho]
      generalize hcnts : calculateWordCnts (headerWordEn (fuse a)) = cnts at hp ⊢
      have htmp' : ∀ w : Fin 4, ((if 2 * (w : ℕ) < cnts * 2 then fuse (a + 1 + 2 * w)
            else tmpdata (2 * w)), if 2 * (w : ℕ) + 1 < cnts * 2 then fuse (a + 1 + (2 * w + 1))
            else tmpdata (2 * w + 1)) = placedWord fuse w (a :: ps) := by
        intro w
        rw [placedWord, hcnts]
        by_cases hw : (w : ℕ) < cnts
        · rw [if_pos hw, if_pos (by omega), if_pos (by omega), packetWord]
        · rw [if_neg hw, if_neg (by omega), if_neg (by omega), htmp w]
      split_ifs with hempty
      · refine pgPacketReadFrom_packets as (a :: ps) hn' hp htmp' (fun w => ?_) w
        rw [fromData, hcnts, if_neg fun h => h.2 hempty, hdata]
      · refine pgPacketReadFrom_packets as (a :: ps) hn' hp htmp' (fun w => ?_) w
        rw [wordEnableDataRead, fromData, hcnts]
        by_cases hw : WordEnabled (headerWordEn (fuse a)) w
        · rw [if_pos hw, if_pos (And.intro hw hempty)]
          exact htmp' w
        · rw [if_neg hw, if_neg fun h => hw h.1, hdata]
    · rw [if_neg ho, if_neg ho]
      exact pgPacketReadFrom_packets as ps hn' hp htmp hdata w

/-- The bytes of words that are in the memory one after the other. -/
theorem read_words (fuse : ℕ → UInt8) : ∀ {ws : List (Fin 4)} (addr : ℕ), ws.Nodup →
    Memory.read fuse addr (2 * ws.length) = wordBytes (fun w =>
      (fuse (addr + 2 * ws.idxOf w), fuse (addr + (2 * ws.idxOf w + 1)))) ws
  | [], _, _ => rfl
  | w :: ws, addr, h => by
    have hrest : ∀ v ∈ ws, (w :: ws).idxOf v = ws.idxOf v + 1 := fun v hv =>
      idxOf_cons_ne _ fun hvw => (nodup_cons.1 h).1 (hvw ▸ hv)
    rw [length_cons, show 2 * (ws.length + 1) = 2 + 2 * ws.length by omega, Memory.read_add,
      read_words fuse (addr + 2) (nodup_cons.1 h).2, wordBytes, wordBytes, flatMap_cons,
      idxOf_cons_self]
    congr 1
    refine flatMap_congr fun v hv => ?_
    rw [hrest v hv]
    simp only [mul_succ, add_assoc, add_comm 2]

namespace EfuseReader

/-- `ReadEFuse`, after the packets `ps` of the section. -/
theorem readFrom_packets : ∀ (as ps : List ℕ) {addr n : ℕ} {r : EfuseReader}, as.length < n →
    Packets fuse addr as → r.addr = addr → (∀ w, r.word o w = newestWord fuse w ps) → ∀ w,
      (if fuse r.addr ≠ 0xFF ∧ r.addr < efuseMaxSize then readFrom fuse n (fuse r.addr) r.advance
        else readFrom fuse n (fuse r.addr) r).word o w =
        newestWord fuse w (sectionPackets fuse o as ++ ps)
  | [], ps, _, n, r, _, hp, rfl, hword, w => by
    have hblank : fuse r.addr = 0xFF := hp.2 r.addr (le_refl _)
    rw [hblank, if_neg fun h => h.1 rfl, readFrom_blank]
    exact hword w
  | a :: as, ps, _, n + 1, r, hn, ⟨ha, hheader, hp⟩, rfl, hword, w => by
    subst ha
    have hlt := length_lt_of_packets hp
    generalize hws : enabledWords (headerWordEn (fuse r.addr)) = ws at *
    have hcnts : calculateWordCnts (headerWordEn (fuse r.addr)) = ws.length := by rw [← hws]; rfl
    have hnodup : ws.Nodup := hws ▸ (nodup_finRange 4).filter _
    have hadvance : r.advance.addr = r.addr + 1 := rfl
    have hwords := readWords_eq fuse (headerOffset (fuse r.addr)) _ ws r.advance
      (read_words fuse r.advance.addr hnodup) (by omega)
    rw [if_pos ⟨hheader, by omega⟩, readFrom, if_pos ⟨hheader, by omega⟩, hws, hwords,
      sectionPackets_cons]
    refine readFrom_packets as _ (lt_of_succ_lt_succ hn) hp (by simp only; omega)
      (fun w => ?_) w
    have hmem : w ∈ ws ↔ WordEnabled (headerWordEn (fuse r.addr)) w := hws ▸ mem_enabledWords
    by_cases ho : headerOffset (fuse r.addr) = o
    · rw [if_pos ho, newestWord, hws]
      simp only [ho, true_and, hmem]
      split_ifs
      · rfl
      · exact hword w
    · rw [if_neg ho]
      simp only [Ne.symm ho, false_and, if_false]
      exact hword w

end EfuseReader

/-! ## The section -/

/-- The 8 bytes of a section. -/
def sectionBytes (data : PgData) : List UInt8 :=
  wordBytes data (finRange 4)

/-- The part of the map for a section. -/
theorem take_efuseTbl (word : UInt8 → PgData) (ho : o < 16) :
    (((range 128).map (efuseTbl word)).drop (8 * o.toNat)).take 8 = sectionBytes (word o) := by
  have hall : ∀ k : Fin 16, (((range 128).drop (8 * k)).take 8).map (fun i =>
      (UInt8.ofNat (i / 8), Fin.ofNat 4 (i % 8 / 2), decide (i % 2 = 0))) =
        (finRange 4).flatMap fun w => [(UInt8.ofNat k, w, true), (UInt8.ofNat k, w, false)] := by
    decide +kernel
  have hk := congrArg (map fun e : UInt8 × Fin 4 × Bool =>
    if e.2.2 then (word e.1 e.2.1).1 else (word e.1 e.2.1).2) (hall ⟨o.toNat, ho⟩)
  rw [map_map, map_flatMap, UInt8.ofNat_toNat] at hk
  rw [← map_drop, ← map_take]
  exact Eq.trans (map_congr_left fun i _ => by simp [efuseTbl]) hk

/-- The two readers agree on a section if and only if its words are found in their places. -/
theorem efuseReaders_agree_iff {as : List ℕ} (hp : Packets fuse 0 as) (ho : o < 16) :
    ((readEFuse fuse 0 128).map fun m => (m.drop (8 * o.toNat)).take 8) =
        some (sectionBytes (pgPacketRead fuse o).1) ↔ WordsInPlace fuse o as := by
  have hlen := length_lt_of_packets hp
  have hpg : ∀ w, (pgPacketRead fuse o).1 w =
      placedWord fuse w (fromData fuse w (sectionPackets fuse o as)) := fun w => by
    rw [pgPacketRead, ← append_nil (sectionPackets fuse o as)]
    exact pgPacketReadFrom_packets as [] (by omega) hp (fun _ => rfl) (fun _ => rfl) w
  have hread : ∀ w, (readEFuseWords fuse).word o w =
      newestWord fuse w (sectionPackets fuse o as) := fun w => by
    have h := EfuseReader.readFrom_packets (o := o) as [] (n := efuseMaxSize + 1) (by omega) hp
      (r := ⟨fun _ _ => blankWord, 0, 0⟩) rfl (fun _ => rfl) w
    rw [append_nil] at h
    rw [← h, readEFuseWords]
    have hpos : 0 < efuseMaxSize := by decide
    by_cases hblank : fuse 0 = 0xFF <;> simp [hblank, hpos]
  have hmap : ((readEFuse fuse 0 128).map fun m => (m.drop (8 * o.toNat)).take 8) =
      some (sectionBytes ((readEFuseWords fuse).word o)) := by
    rw [← take_efuseTbl _ ho, readEFuse, if_neg (by decide)]
    simp only [zero_add, Option.map_some]
  rw [hmap, Option.some.injEq]
  have hbytes : ∀ d d' : PgData, sectionBytes d = sectionBytes d' ↔ ∀ w, d w = d' w := by
    intro d d'
    simp [sectionBytes, wordBytes, finRange_succ, Fin.forall_fin_succ, Prod.ext_iff, and_assoc]
  rw [hbytes, WordsInPlace]
  simp only [hpg, hread]

/-- Two packets of section 0, of which the newer one has the first two words, and between them one
of section 1. -/
theorem efuseReaders_agree_newer :
    let fuse := fun i => [0x00, 1, 2, 3, 4, 5, 6, 7, 8, 0x1E, 9, 10, 0x0C, 11, 12, 13, 14].getD i
      (0xFF : UInt8)
    ((readEFuse fuse 0 128).map fun m => (m.drop (8 * (0 : UInt8).toNat)).take 8) =
      some (sectionBytes (pgPacketRead fuse 0).1) :=
  (@efuseReaders_agree_iff _ _ [0, 9, 12]
    ⟨rfl, by decide, rfl, by decide, rfl, by decide, by decide,
      fun i hi => getD_eq_default _ _ hi⟩ (by decide)).2
    (by unfold WordsInPlace; decide +kernel)

/-- A packet that has word 1 only : `efuse_PgPacketRead` delivers a blank section. -/
theorem efuseReaders_disagree :
    let fuse := fun i => [0x0D, 0x34, 0x12].getD i (0xFF : UInt8)
    Packets fuse 0 [0] ∧
      ((readEFuse fuse 0 128).map fun m => m.take 8) =
        some [0xFF, 0xFF, 0x34, 0x12, 0xFF, 0xFF, 0xFF, 0xFF] ∧
      sectionBytes (pgPacketRead fuse 0).1 = replicate 8 0xFF :=
  ⟨⟨rfl, by decide, by decide, fun i hi => getD_eq_default _ _ hi⟩, by decide +kernel,
    by decide +kernel⟩

end OpenHMR
