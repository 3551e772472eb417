import TagSoc.HostSession

/-!
# Loading an image through the bridge

`load_image` of a new session: the size of the memory is asked for, every word of it is
written, and every word is read back. The assertion at its end holds, and the memory has
the bytes of the file.
-/
namespace TagSoc.Fpga
open Soc WbRam Programs HexText ImageLoader

variable {g : ℕ}

/-! ## Addresses -/

section address
variable {k : ℕ} (hg : g ≤ 22) (hk : k < 2 ^ (g + 2))
include hg hk

theorem word_lt : 4 * k < 2 ^ 26 := by
  have hpow : 2 ^ (g + 2) ≤ 2 ^ 24 := Nat.pow_le_pow_right (by decide) (by omega)
  omega

theorem periphSelect_word : periphSelect (BitVec.ofNat 32 (4 * k)) = wbAccessRam := by
  have hlt := word_lt hg hk
  apply BitVec.eq_of_toNat_eq
  rw [periphSelect, BitVec.extractLsb'_toNat, BitVec.toNat_ofNat, Nat.shiftRight_eq_div_pow,
    Nat.mod_eq_of_lt (show 4 * k < 2 ^ 32 by omega), Nat.div_eq_of_lt hlt]
  rfl

theorem wordAddr_word : wordAddr g (BitVec.ofNat 32 (4 * k)) = BitVec.ofNat (g + 2) k := by
  have hlt := word_lt hg hk
  apply BitVec.eq_of_toNat_eq
  rw [wordAddr, BitVec.extractLsb'_toNat, BitVec.toNat_ofNat, BitVec.toNat_ofNat,
    Nat.shiftRight_eq_div_pow, Nat.mod_eq_of_lt (show 4 * k < 2 ^ 32 by omega)]
  congr 1
  omega

end address

theorem ramSize_toNat (hg : g ≤ 22) : (BitVec.ofNat 32 (2 ^ (g + 4))).toNat = 4 * 2 ^ (g + 2) := by
  have hpow : 2 ^ (g + 4) ≤ 2 ^ 26 := Nat.pow_le_pow_right (by decide) (by omega)
  rw [BitVec.toNat_ofNat, Nat.mod_eq_of_lt (by omega), show g + 4 = g + 2 + 2 by omega, pow_succ,
    pow_succ]
  omega

/-! ## The loops -/

section loops
variable {m : Contents g} {d : BitVec 32} {h : Host g} (hg : g ≤ 22)

theorem Serves.getSocRamSize (hs : Serves m d h) :
    Returns Fpga.getSocRamSize h fun v h' => v = BitVec.ofNat 32 (2 ^ (g + 4)) ∧ Serves m d h' := by
  obtain ⟨hy, hwe, r, hr, hp⟩ := hs
  refine (hp.readPair (k := regLowSocMemSize) (j := regHighSocMemSize) (by decide) (by decide)
    (Rest.steady_plain hr) (x := BitVec.ofNat 32 (2 ^ (g + 4))) fun c _ => ⟨rfl, rfl⟩).mono ?_
  rintro v s ⟨rfl, hp'⟩
  exact ⟨rfl, hp'.serving hr hy hwe⟩

/-- The words of `ws` from the word `k` on, over those of `m`. -/
def overlay (m : Contents g) (k : ℕ) (ws : List (BitVec 32)) : Contents g :=
  { m with words := fun a =>
      if k ≤ a.toNat ∧ a.toNat < k + ws.length then ws.getD (a.toNat - k) 0#32 else m.words a }

theorem overlay_cons (m : Contents g) {k : ℕ} (hk : k < 2 ^ (g + 2)) (w : BitVec 32)
    (ws : List (BitVec 32)) :
    overlay { m with words := Function.update m.words (BitVec.ofNat (g + 2) k) w } (k + 1) ws =
      overlay m k (w :: ws) := by
  have hval : (BitVec.ofNat (g + 2) k).toNat = k := by
    rw [BitVec.toNat_ofNat, Nat.mod_eq_of_lt hk]
  have hword : ∀ a : BitVec (g + 2),
      (if k + 1 ≤ a.toNat ∧ a.toNat < k + 1 + ws.length then ws.getD (a.toNat - (k + 1)) 0#32
        else Function.update m.words (BitVec.ofNat (g + 2) k) w a) =
      if k ≤ a.toNat ∧ a.toNat < k + (ws.length + 1) then (w :: ws).getD (a.toNat - k) 0#32
        else m.words a := by
    intro a
    rcases Nat.lt_trichotomy a.toNat k with hlt | heq | hgt
    · have hne : a ≠ BitVec.ofNat (g + 2) k := fun h => by rw [h, hval] at hlt; omega
      rw [if_neg (by omega), if_neg (by omega), Function.update_of_ne hne]
    · have ha : a = BitVec.ofNat (g + 2) k := BitVec.eq_of_toNat_eq (heq.trans hval.symm)
      rw [if_neg (by omega), if_pos (by omega), ha, Function.update_self, hval, Nat.sub_self,
        List.getD_cons_zero]
    · have hne : a ≠ BitVec.ofNat (g + 2) k := fun h => by rw [h, hval] at hgt; omega
      by_cases hin : a.toNat < k + 1 + ws.length
      · rw [if_pos (by omega), if_pos (by omega), show a.toNat - k = a.toNat - (k + 1) + 1 by omega,
          List.getD_cons_succ]
      · rw [if_neg (by omega), if_neg (by omega), Function.update_of_ne hne]
  simp only [overlay, List.length_cons, hword]

include hg

theorem Serves.writeNumber {k : ℕ} (hk : k < 2 ^ (g + 2)) (hs : Serves m d h) (w : BitVec 32) :
    Returns (Fpga.writeNumber (4 * k) (w.toNat : ℤ)) h fun _ h' =>
      Serves { m with words := Function.update m.words (BitVec.ofNat (g + 2) k) w } d h' := by
  have hw := w.isLt
  rw [Fpga.writeNumber, if_pos (by omega), show BitVec.ofInt 32 (w.toNat : ℤ) = w by simp]
  refine (hs.writeWordRam (periphSelect_word hg hk) w).mono ?_
  rintro b h' ⟨-, hs'⟩
  simpa [Contents.write, wbSelWord, wbSelTag, dataToWrite, wbSelByte, wbSelHalf,
    wordAddr_word hg hk] using hs'

theorem Serves.writeWords {ws : List (BitVec 32)} {k : ℕ} (hlen : k + ws.length ≤ 2 ^ (g + 2))
    (hs : Serves m d h) :
    Returns (Fpga.writeWords (4 * k) (ws.map fun w => (w.toNat : ℤ))) h fun _ h' =>
      Serves (overlay m k ws) d h' := by
  induction ws generalizing k m h with
  | nil =>
      have hnone : overlay m k [] = m := by
        have hfalse : ∀ a : BitVec (g + 2), ¬(k ≤ a.toNat ∧ a.toNat < k + 0) := by omega
        simp only [overlay, List.length_nil, hfalse, if_false]
      rw [List.map_nil, Fpga.writeWords, hnone]
      exact Returns.pure hs
  | cons w ws ih =>
      rw [List.length_cons] at hlen
      rw [List.map_cons, Fpga.writeWords]
      refine (hs.writeNumber hg (by omega) w).bind fun _ h₁ hs₁ => ?_
      rw [← overlay_cons m (by omega)]
      exact ih (k := k + 1) (by omega) hs₁

theorem Serves.readWords (hs : Serves m d h) :
    Returns (Fpga.readWords (4 * 2 ^ (g + 2))) h fun ws h' =>
      ws = (List.range (2 ^ (g + 2))).map (fun k => ((m.words (BitVec.ofNat (g + 2) k)).toNat : ℤ)) ∧
        ∃ d, Serves m d h' := by
  rw [Fpga.readWords, show (4 * 2 ^ (g + 2) + 3) / 4 = 2 ^ (g + 2) by omega]
  refine Returns.mapM_eq (fun h => ∃ d, Serves m d h)
    (fun k => ((m.words (BitVec.ofNat (g + 2) k)).toNat : ℤ)) ⟨d, hs⟩ fun k hk s ⟨d', hs'⟩ => ?_
  rw [List.mem_range] at hk
  refine (hs'.readWordRam (periphSelect_word hg hk)).bind ?_
  rintro v h' ⟨rfl, hs''⟩
  rw [wordAddr_word hg hk]
  exact Returns.pure ⟨rfl, _, hs''⟩

end loops

/-! ## The load -/

theorem ofExcept_ok {α : Type} {e : Except Error α} {a : α} (he : e = .ok a) {h : Host g} :
    Returns (ofExcept e) h fun b h' => b = a ∧ h' = h := by
  rw [he]
  exact Returns.pure ⟨rfl, rfl⟩

/-- The words of the image, over the whole memory. -/
def imageContents (m : Contents g) (image : List Line) : Contents g :=
  { m with words := fun a => imageWord (assigned 0 image) a.toNat }

theorem overlay_image (m : Contents g) (image : List Line) :
    overlay m 0 ((List.range (2 ^ (g + 2))).map (imageWord (assigned 0 image))) =
      imageContents m image := by
  have hword : ∀ a : BitVec (g + 2), (if 0 ≤ a.toNat ∧ a.toNat < 0 + 2 ^ (g + 2) then
      ((List.range (2 ^ (g + 2))).map (imageWord (assigned 0 image))).getD (a.toNat - 0) 0#32
      else m.words a) = imageWord (assigned 0 image) a.toNat := by
    intro a
    have ha := a.isLt
    rw [if_pos (by omega), Nat.sub_zero]
    simp [ha]
  simp only [overlay, imageContents, List.length_map, List.length_range, hword]

theorem Serves.loadImage {m : Contents g} {d : BitVec 32} {h : Host g} (hg : g ≤ 22)
    {lines : List Text} {image : List Line} (himage : List.Forall₂ Reads lines image)
    (hin : ∀ p ∈ assigned 0 image, p.1 < 2 ^ (g + 4)) (hs : Serves m d h) :
    Returns (Fpga.loadImage lines) h fun lowest h' =>
      lowest = ((taken (sections image)).getD 0 : ℕ) ∧
        ∃ d', Serves (imageContents m image) d' h' := by
  have hsize := ramSize_toNat hg
  have hbytes : 2 ^ (g + 4) = 4 * 2 ^ (g + 2) := by
    rw [show g + 4 = g + 2 + 2 by omega, pow_succ, pow_succ]
    omega
  rw [hbytes] at hin
  obtain ⟨scan, a, hscan, h₀⟩ := Scanned.lines himage (Scanned.initial (4 * 2 ^ (g + 2))) hin
  rw [List.nil_append, List.nil_append] at h₀
  have hpack := pack_eq h₀.length h₀.bytes
  refine hs.getSocRamSize.bind ?_
  rintro v h₁ ⟨rfl, hs₁⟩
  rw [hsize]
  refine (ofExcept_ok hscan).bind ?_
  rintro b h₂ ⟨rfl, rfl⟩
  refine (ofExcept_ok hpack).bind ?_
  rintro b h₃ ⟨rfl, rfl⟩
  have hwords : (List.range (2 ^ (g + 2))).map (fun k =>
      ((imageWord (assigned 0 image) k).toNat : ℤ)) =
      ((List.range (2 ^ (g + 2))).map (imageWord (assigned 0 image))).map
        fun w => (w.toNat : ℤ) := by
    rw [List.map_map]
    rfl
  rw [hwords]
  refine (hs₁.writeWords hg (k := 0) (by simp)).bind fun _ h₄ hs₄ => ?_
  rw [overlay_image] at hs₄
  refine (hs₄.readWords hg).bind ?_
  rintro ws h₅ ⟨rfl, d₅, hs₅⟩
  -- what was read is what was written
  have hsame : ((List.range (2 ^ (g + 2))).map (imageWord (assigned 0 image))).map
      (fun w => (w.toNat : ℤ)) = (List.range (2 ^ (g + 2))).map (fun k =>
        (((imageContents m image).words (BitVec.ofNat (g + 2) k)).toNat : ℤ)) := by
    rw [← hwords]
    refine List.map_congr_left fun k hk => ?_
    rw [List.mem_range] at hk
    simp only [imageContents, BitVec.toNat_ofNat, Nat.mod_eq_of_lt hk]
  rw [hsame]
  refine Returns.bind (Q := fun _ h' => h' = h₅) ?_ ?_
  · rw [Fpga.assert, if_pos (by simp)]
    exact Returns.pure rfl
  · rintro - h₆ rfl
    exact Returns.pure ⟨h₀.minAddress, d₅, hs₅⟩

/-- A file whose addresses lie in the memory is loaded by a new session: no assertion
fails, and every byte of the memory is the last one that the file gives for its address,
or `0`. -/
theorem image_loaded (g : ℕ) (hg : g ≤ 22) (s : State g) (times : ℕ → Timing)
    (lines : List Text) (image : List Line) (himage : List.Forall₂ Reads lines image)
    (hin : ∀ p ∈ assigned 0 image, p.1 < 2 ^ (g + 4)) :
    Returns (do
      opening
      loadImage lines) ⟨s, 0#16, times, []⟩ fun _ h =>
      ∀ i < 2 ^ (g + 4), RamImage.ramByte (fun k => h.fpga.soc.ram.contents.words
        (BitVec.ofNat (g + 2) k)) i = lastByte (assigned 0 image) i := by
  refine (opening_spec s times []).bind fun _ h₁ hs₁ => ?_
  refine (hs₁.loadImage hg himage hin).mono ?_
  rintro lowest h₂ ⟨-, d, hs₂⟩ i hi
  have hbytes : 2 ^ (g + 4) = 4 * 2 ^ (g + 2) := by
    rw [show g + 4 = g + 2 + 2 by omega, pow_succ, pow_succ]
    omega
  have hk : i / 4 < 2 ^ (g + 2) := by omega
  rw [hs₂.contents, ← ramByte_imageWord (assigned 0 image) (2 ^ (g + 2)) i (by omega)]
  simp only [RamImage.ramByte, imageContents, BitVec.toNat_ofNat, Nat.mod_eq_of_lt hk]
  simp [hk]

/-- Two sections of a byte each, on a board with eight words. -/
theorem image_loaded_two :
    Returns (do
      opening
      loadImage [['@', '4'], ['2', '2'], ['@', '8'], ['1', '1']])
      ⟨started, 0#16, fun _ => ⟨0, 0⟩, []⟩ fun _ h =>
      ∀ i < 2 ^ 5, RamImage.ramByte (fun k => h.fpga.soc.ram.contents.words (BitVec.ofNat 3 k)) i =
        lastByte [(4, 0x22), (8, 0x11)] i :=
  image_loaded 1 (by decide) started (fun _ => ⟨0, 0⟩) _
    [.address 4, .bytes [0x22], .address 8, .bytes [0x11]]
    (.cons (.address rfl rfl) (.cons (.bytes rfl (by decide) (.cons rfl .nil))
      (.cons (.address rfl rfl) (.cons (.bytes rfl (by decide) (.cons rfl .nil)) .nil))))
    (by decide)

end TagSoc.Fpga
