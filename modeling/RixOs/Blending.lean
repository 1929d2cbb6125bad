import RixOs.ConsoleChunks
import RixOs.ProofKit.Bytes

/-! What a string leaves in the frame buffer.  A glyph pixel adds its intensity to the red, green
and blue byte of the word that it lands on, each for itself and up to 255.  Where several pixels
land on one word, as those of a string that is longer than a row do, their intensities add up, and
their order does not matter. -/

namespace RixOs

open ProofKit

inductive Channel
  | red
  | green
  | blue
  deriving DecidableEq, Repr

/-- A colour byte of a word. -/
def Channel.byte : Channel → UInt32 → Nat
  | .red, pixel => pixel.toNat / 2 ^ 16 % 2 ^ 8
  | .green, pixel => pixel.toNat / 2 ^ 8 % 2 ^ 8
  | .blue, pixel => pixel.toNat % 2 ^ 8

namespace NotoFontDisplay

variable {font : Font} {self out : NotoFontDisplay} {msg : String} {buffer drawn : List UInt32}
  {ps : List (Nat × UInt8)} {i : Nat}

/-- The sum of the intensities that land on index `i`. -/
def landing (i : Nat) : List (Nat × UInt8) → Nat
  | [] => 0
  | (index, intensity) :: ps => (if index = i then intensity.toNat else 0) + landing i ps

/-! ### One pixel -/

theorem toNat_saturatingAdd (a b : UInt8) :
    (saturatingAdd a b).toNat = min 255 (a.toNat + b.toNat) := by
  rw [saturatingAdd, UInt8.toNat_ofNat']
  omega

/-- Three bytes next to each other do not overlap. -/
theorem byte_pack (r g b : UInt8) :
    Channel.red.byte ((r.toUInt32 <<< 16) + (g.toUInt32 <<< 8) + b.toUInt32) = r.toNat ∧
      Channel.green.byte ((r.toUInt32 <<< 16) + (g.toUInt32 <<< 8) + b.toUInt32) = g.toNat ∧
      Channel.blue.byte ((r.toUInt32 <<< 16) + (g.toUInt32 <<< 8) + b.toUInt32) = b.toNat := by
  have hr := r.toNat_lt
  have hg := g.toNat_lt
  have hb := b.toNat_lt
  have hPack : ((r.toUInt32 <<< 16) + (g.toUInt32 <<< 8) + b.toUInt32).toNat =
      r.toNat * 2 ^ 16 + g.toNat * 2 ^ 8 + b.toNat := by
    simp only [UInt32.toNat_add, UInt32.toNat_shiftLeft, UInt8.toNat_toUInt32, UInt32.reduceToNat,
      Nat.reduceMod, Nat.shiftLeft_eq]
    omega
  simp only [Channel.byte, hPack]
  omega

theorem toNat_unpack (pixel mask shift : UInt32) (k : Nat) (hMask : mask.toNat = (2 ^ 8 - 1) <<< k)
    (hShift : shift.toNat % 32 = k) :
    ((pixel &&& mask) >>> shift).toUInt8.toNat = pixel.toNat / 2 ^ k % 2 ^ 8 := by
  rw [UInt32.toNat_toUInt8, UInt32.toNat_shiftRight, UInt32.toNat_and, hMask, hShift, and_mask,
    Nat.shiftRight_eq_div_pow, Nat.mul_div_cancel _ (Nat.two_pow_pos k), Nat.pow_add,
    Nat.mod_mul_right_div_self, Nat.mod_mod]

/-- Unpacking, adding and packing act on each colour byte alone. -/
theorem byte_shade (pixel : UInt32) (intensity : UInt8) (c : Channel) :
    c.byte (shade pixel intensity) = min 255 (c.byte pixel + intensity.toNat) := by
  have hRed := toNat_unpack pixel 0xff0000 16 16 rfl rfl
  have hGreen := toNat_unpack pixel 0xff00 8 8 rfl rfl
  have hBlue : (pixel &&& 0xff).toUInt8.toNat = pixel.toNat % 2 ^ 8 := by
    rw [UInt32.toNat_toUInt8, UInt32.toNat_and, show (0xff : UInt32).toNat = 2 ^ 8 - 1 from rfl,
      Nat.and_two_pow_sub_one_eq_mod, Nat.mod_mod]
  obtain ⟨hPackRed, hPackGreen, hPackBlue⟩ := byte_pack
    (saturatingAdd ((pixel &&& 0xff0000) >>> 16).toUInt8 intensity)
    (saturatingAdd ((pixel &&& 0xff00) >>> 8).toUInt8 intensity)
    (saturatingAdd (pixel &&& 0xff).toUInt8 intensity)
  rw [shade]
  cases c with
  | red => rw [hPackRed, toNat_saturatingAdd, hRed, Channel.byte]
  | green => rw [hPackGreen, toNat_saturatingAdd, hGreen, Channel.byte]
  | blue => rw [hPackBlue, toNat_saturatingAdd, hBlue, Channel.byte]

/-! ### All pixels -/

theorem byte_lt (c : Channel) (pixel : UInt32) : c.byte pixel < 2 ^ 8 := by
  cases c <;> exact Nat.mod_lt _ (by decide)

/-- Adding with saturation at every step is adding everything and saturating once. -/
theorem drawPixels_byte {old : UInt32} (h : ps.foldlM drawPixel buffer = .ok drawn)
    (hOld : buffer[i]? = some old) : ∃ new, drawn[i]? = some new ∧
      ∀ c : Channel, c.byte new = min 255 (c.byte old + landing i ps) := by
  induction ps generalizing buffer old with
  | nil =>
    obtain rfl := Except.ok.inj h
    refine ⟨old, hOld, fun c => ?_⟩
    have hByte := byte_lt c old
    rw [landing]
    omega
  | cons p ps ih =>
    rw [List.foldlM_cons] at h
    obtain ⟨next, hNext, h⟩ := Panic.bind_eq_ok h
    obtain ⟨before, hBefore, -, rfl⟩ := drawPixel_ok hNext
    by_cases hi : p.1 = i
    · subst hi
      obtain rfl := Option.some.inj (hBefore.symm.trans hOld)
      obtain ⟨hLt, -⟩ := List.getElem?_eq_some_iff.mp hBefore
      obtain ⟨new, hNew, hBytes⟩ := ih h (List.getElem?_set_self hLt)
      refine ⟨new, hNew, fun c => ?_⟩
      rw [hBytes c, byte_shade, landing, if_pos rfl]
      omega
    · obtain ⟨new, hNew, hBytes⟩ := ih h ((List.getElem?_set_ne hi).trans hOld)
      refine ⟨new, hNew, fun c => ?_⟩
      rw [hBytes c, landing, if_neg hi, Nat.zero_add]

theorem drawString_drawBuffer (h : self.drawString font msg = .ok out) :
    (self.pixels font msg).foldlM drawPixel self.drawBuffer = .ok out.drawBuffer := by
  obtain ⟨drawBuffer, hDraw, h⟩ := Panic.bind_eq_ok h
  obtain ⟨cursorY, -, h⟩ := Panic.bind_eq_ok h
  split at h
  · obtain ⟨cursorX, -, h⟩ := Panic.bind_eq_ok h
    rw [← Except.ok.inj h, hDraw]
  · rw [← Except.ok.inj h, hDraw]

/-- A string leaves the words alone that no glyph pixel lands on.  To the others it adds all the
intensities that land there, byte by byte, and clears their top byte.  On the way, no addition of
an intensity carries from one byte to the next. -/
theorem drawString_blends (h : self.drawString font msg = .ok out) (i : Nat) :
    ((∀ p ∈ self.pixels font msg, p.1 ≠ i) → out.drawBuffer[i]? = self.drawBuffer[i]?) ∧
      ((∃ p ∈ self.pixels font msg, p.1 = i) → ∃ old new, self.drawBuffer[i]? = some old ∧
        out.drawBuffer[i]? = some new ∧ new.toNat / 2 ^ 24 = 0 ∧
        ∀ c : Channel, c.byte new = min 255 (c.byte old + landing i (self.pixels font msg))) ∧
      ∀ (pixel : UInt32) (intensity : UInt8) (c : Channel),
        c.byte (shade pixel intensity) = min 255 (c.byte pixel + intensity.toNat) := by
  have hDraw := drawString_drawBuffer h
  refine ⟨drawPixels_untouched hDraw, fun hTouched => ?_, byte_shade⟩
  obtain ⟨new, hNew, hTop⟩ := drawPixels_touched hDraw (.inl hTouched)
  obtain ⟨hLt, -⟩ := List.getElem?_eq_some_iff.mp hNew
  rw [drawPixels_length hDraw] at hLt
  obtain ⟨new', hNew', hBytes⟩ := drawPixels_byte hDraw (List.getElem?_eq_getElem hLt)
  obtain rfl := Option.some.inj (hNew.symm.trans hNew')
  exact ⟨_, new, List.getElem?_eq_getElem hLt, hNew, Nat.div_eq_of_lt hTop, hBytes⟩

/-- Glyphs of two rows and one column. -/
def columnFont : Font where
  rasterHeight := 2
  getRaster _ := some ⟨1, [[0x60], [0x60]], by decide, by decide, by decide⟩
  rasterHeight_pos := by decide
  space := rfl

/-- On rows of one word, the lower pixel of the first letter and the upper one of the second land
on one word. -/
theorem drawString_blends_overlap : ∃ out,
    (new 1 3 1 [0xff408deb, 0xff408deb, 0xff408deb]).drawString columnFont "ab" = .ok out ∧
      ∃ pixel, out.drawBuffer[1]? = some pixel ∧ pixel.toNat / 2 ^ 24 = 0 ∧
        Channel.red.byte pixel = 255 ∧ Channel.green.byte pixel = 255 := by
  obtain ⟨out, hDraw⟩ : ∃ out, (new 1 3 1 [0xff408deb, 0xff408deb, 0xff408deb]).drawString
      columnFont "ab" = .ok out := ⟨_, rfl⟩
  obtain ⟨old, pixel, hOld, hPixel, hTop, hBytes⟩ :=
    (drawString_blends hDraw 1).2.1 ⟨(1, 0x60), by decide, rfl⟩
  obtain rfl := Option.some.inj hOld
  exact ⟨out, hDraw, pixel, hPixel, hTop, hBytes .red, hBytes .green⟩

end NotoFontDisplay

end RixOs
