import Mathlib.Algebra.Group.Nat.Defs
import Mathlib.Logic.Function.Basic
import RixOs.ProofKit.Overlay
import RixOs.ProofKit.Loops
import RixOs.ProofKit.Triples

/-! The logo that `kernel_main` draws: `bga.rs` sets the video mode of the Bochs graphics adapter,
and a loop copies the pixels of the image to the frame buffer, whose rows are now as long as those
of the image.

The adapter is the index that it latched, its registers, and the words of its memory, of which the
first `mapped` are mapped.  It clears the memory when it is enabled, unless it is told not to.  What
the PNG decoder returns is a parameter. -/

namespace RixOs

open ProofKit

def vbeDispiIoportIndex : UInt16 := 0x01CE

def vbeDispiIoportData : UInt16 := 0x01CF

def vbeDispiIndexXres : UInt16 := 0x01

def vbeDispiIndexYres : UInt16 := 0x02

def vbeDispiIndexBpp : UInt16 := 0x03

def vbeDispiIndexEnable : UInt16 := 0x04

def vbeDispiIndexBank : UInt16 := 0x05

def vbeDispiDisabled : UInt16 := 0x00

def vbeDispiEnabled : UInt16 := 0x01

def vbeDispiLfbEnabled : UInt16 := 0x02

def vbeDispiNoclearmem : UInt16 := 0x04

def vbeDispiBpp32 : UInt16 := 0x20

structure Bga where
  index : UInt16
  registers : UInt16 → UInt16
  memory : Nat → UInt32
  mapped : Nat

namespace Bga

def setRegister (s : Bga) (index value : UInt16) : Bga :=
  let enables := index = vbeDispiIndexEnable ∧ value &&& vbeDispiEnabled ≠ 0 ∧
    s.registers vbeDispiIndexEnable &&& vbeDispiEnabled = 0
  { s with
    registers := Function.update s.registers index value
    memory := if enables ∧ value &&& vbeDispiNoclearmem = 0 then fun _ => 0 else s.memory }

def write (s : Bga) (port value : UInt16) : Bga :=
  if port = vbeDispiIoportIndex then { s with index := value }
  else if port = vbeDispiIoportData then s.setRegister s.index value
  else s

/-- The colour that is on the screen at column `x` of row `y`. -/
def shown (s : Bga) (x y : Nat) : Option UInt32 :=
  if s.registers vbeDispiIndexEnable = vbeDispiEnabled ||| vbeDispiLfbEnabled ∧
      s.registers vbeDispiIndexBpp = vbeDispiBpp32 ∧
      x < (s.registers vbeDispiIndexXres).toNat ∧ y < (s.registers vbeDispiIndexYres).toNat then
    some (s.memory (y * (s.registers vbeDispiIndexXres).toNat + x))
  else none

end Bga

inductive LogoStop
  | arithmeticOverflow
  | indexOutOfBounds
  | pageFault
  deriving DecidableEq, Repr

abbrev LogoProgram := Program Bga LogoStop

def bgaWriteRegister (indexValue dataValue : UInt16) : LogoProgram Unit := do
  modify fun s => s.write vbeDispiIoportIndex indexValue
  modify fun s => s.write vbeDispiIoportData dataValue

def bgaSetVideoMode (width height bitDepth : UInt32)
    (useLinearFrameBuffer clearVideoMemory : Bool) : LogoProgram Unit := do
  bgaWriteRegister vbeDispiIndexEnable vbeDispiDisabled
  bgaWriteRegister vbeDispiIndexXres width.toUInt16
  bgaWriteRegister vbeDispiIndexYres height.toUInt16
  bgaWriteRegister vbeDispiIndexBpp bitDepth.toUInt16
  let enableValue := vbeDispiEnabled
  let enableValue :=
    if useLinearFrameBuffer then enableValue ||| vbeDispiLfbEnabled else enableValue
  let enableValue := if clearVideoMemory then enableValue else enableValue ||| vbeDispiNoclearmem
  bgaWriteRegister vbeDispiIndexEnable enableValue

def bgaSetBank (bankNumber : UInt16) : LogoProgram Unit :=
  bgaWriteRegister vbeDispiIndexBank bankNumber

/-- A pixel as `png_decoder::decode` returns it. -/
structure Pixel where
  r : UInt8
  g : UInt8
  b : UInt8
  a : UInt8
  deriving DecidableEq, Repr

/-- The word that the loop writes for a pixel: black where the pixel is transparent. -/
def Pixel.color (pixel : Pixel) : UInt32 :=
  if 0 < pixel.a then
    (pixel.r.toUInt32 <<< 16) ||| (pixel.g.toUInt32 <<< 8) ||| pixel.b.toUInt32
  else 0x00000000

/-- The body of the inner loop. -/
def drawLogoPixel (imgWidth : UInt32) (pixels : List Pixel) (y x : Nat) : LogoProgram Unit := do
  -- `y * img_width + x` is computed in 32 bits, and once more in 64 bits
  if 2 ^ 32 ≤ y * imgWidth.toNat then throw .arithmeticOverflow
  if 2 ^ 32 ≤ y * imgWidth.toNat + x then throw .arithmeticOverflow
  let srcIndex := y * imgWidth.toNat + x
  let dstOffset := y * imgWidth.toNat + x
  match pixels[srcIndex]? with
  | none => throw .indexOutOfBounds
  | some pixel =>
    if (← get).mapped ≤ dstOffset then throw .pageFault
    modify fun s => { s with memory := Function.update s.memory dstOffset pixel.color }

/-- The part of `kernel_main` from the video mode to the end of the loops. -/
def showLogo (imgWidth imgHeight : UInt32) (pixels : List Pixel) : LogoProgram Unit := do
  bgaSetVideoMode imgWidth imgHeight vbeDispiBpp32.toUInt32 true true
  bgaSetBank 0
  forM (List.range imgHeight.toNat) fun y =>
    forM (List.range imgWidth.toNat) fun x => drawLogoPixel imgWidth pixels y x

/-! ### The video mode -/

namespace Bga

variable {s : Bga}

theorem setRegister_clears (h : s.registers vbeDispiIndexEnable = vbeDispiDisabled) :
    (s.setRegister vbeDispiIndexEnable (vbeDispiEnabled ||| vbeDispiLfbEnabled)).memory =
      fun _ => 0 := by
  rw [setRegister, h]
  rfl

theorem setRegister_keeps {index : UInt16} (h : index ≠ vbeDispiIndexEnable) (value : UInt16) :
    (s.setRegister index value).memory = s.memory := if_neg fun hEnables => h hEnables.1.1

end Bga

/-- The adapter in the mode of the image, whatever mode it was in. -/
structure Bga.InMode (width height : UInt32) (s : Bga) : Prop where
  enable : s.registers vbeDispiIndexEnable = vbeDispiEnabled ||| vbeDispiLfbEnabled
  bpp : s.registers vbeDispiIndexBpp = vbeDispiBpp32
  xres : s.registers vbeDispiIndexXres = width.toUInt16
  yres : s.registers vbeDispiIndexYres = height.toUInt16
  memory : s.memory = fun _ => 0

theorem exec_setVideoMode (width height : UInt32) (s : Bga) : ∃ t : Bga,
    (do bgaSetVideoMode width height vbeDispiBpp32.toUInt32 true true
        bgaSetBank 0 : LogoProgram Unit).exec s = (.ok (), t) ∧
      t.InMode width height ∧ t.mapped = s.mapped := by
  refine ⟨_, rfl, ⟨rfl, rfl, rfl, rfl, ?_⟩, rfl⟩
  have hBank : vbeDispiIndexBank ≠ vbeDispiIndexEnable := by decide
  exact (Bga.setRegister_keeps hBank _).trans (Bga.setRegister_clears rfl)

/-! ### The loops -/

/-- The body of the inner loop, by the place of the pixel in the image. -/
def drawLogoWord (pixels : List Pixel) (i : Nat) : LogoProgram Unit := do
  if 2 ^ 32 ≤ i then throw .arithmeticOverflow
  match pixels[i]? with
  | none => throw .indexOutOfBounds
  | some pixel =>
    if (← get).mapped ≤ i then throw .pageFault
    modify fun s => { s with memory := Function.update s.memory i pixel.color }

theorem drawLogoPixel_eq (imgWidth : UInt32) (pixels : List Pixel) (y x : Nat) :
    drawLogoPixel imgWidth pixels y x = drawLogoWord pixels (y * imgWidth.toNat + x) := by
  rw [drawLogoPixel, drawLogoWord]
  by_cases hRow : 2 ^ 32 ≤ y * imgWidth.toNat
  · rw [if_pos hRow, if_pos (by omega)]
    rfl
  · rw [if_neg hRow]

variable {pixels : List Pixel} {s : Bga}

/-- The pixels up to `n` have numbers of 32 bits, and places in the image and in the frame buffer. -/
def Drawable (pixels : List Pixel) (mapped n : Nat) : Prop :=
  n ≤ 2 ^ 32 ∧ n ≤ pixels.length ∧ n ≤ mapped

/-- The adapter with the first `n` pixels in its memory. -/
def Bga.drawn (s : Bga) (pixels : List Pixel) (n : Nat) : Bga :=
  { s with memory := overlay s.memory (itemsAt 0 ((pixels.take n).map Pixel.color)) }

theorem Bga.drawn_memory (s : Bga) (pixels : List Pixel) (n i : Nat) :
    (s.drawn pixels n).memory i =
      if i < n then (pixels[i]?.map Pixel.color).getD (s.memory i) else s.memory i := by
  simp only [drawn, itemsAt_zero, overlay, List.getElem?_map, List.getElem?_take]
  split
  · rfl
  · rfl

theorem Bga.drawn_succ {n : Nat} {pixel : Pixel} (s : Bga) (h : pixels[n]? = some pixel) :
    { s.drawn pixels n with memory := Function.update (s.drawn pixels n).memory n pixel.color } =
      s.drawn pixels (n + 1) := by
  have hMemory : Function.update (s.drawn pixels n).memory n pixel.color =
      (s.drawn pixels (n + 1)).memory := by
    funext i
    rw [drawn_memory]
    by_cases hi : i = n
    · subst hi
      rw [Function.update_self, if_pos (Nat.lt_succ_self i), h]
      rfl
    · rw [Function.update_of_ne hi, drawn_memory]
      by_cases hBefore : i < n
      · rw [if_pos hBefore, if_pos (by omega)]
      · rw [if_neg hBefore, if_neg (by omega)]
  rw [hMemory]
  rfl

theorem exec_drawLogoWord (pixels : List Pixel) (s : Bga) (i : Nat) : match (drawLogoWord pixels i).exec s with
    | (.ok _, t) => (i < 2 ^ 32 ∧ i < s.mapped) ∧ ∃ pixel, pixels[i]? = some pixel ∧
        t = { s with memory := Function.update s.memory i pixel.color }
    | (.error _, _) => ¬(i < 2 ^ 32 ∧ i < pixels.length ∧ i < s.mapped) := by
  rw [drawLogoWord]
  by_cases hWord : 2 ^ 32 ≤ i
  · rw [if_pos hWord]
    exact fun h => Nat.not_lt_of_le hWord h.1
  · rw [if_neg hWord]
    cases hPixel : pixels[i]? with
    | none =>
      have hLength := List.getElem?_eq_none_iff.mp hPixel
      exact fun h => Nat.not_lt_of_le hLength h.2.1
    | some pixel =>
      simp only
      rw [exec_bind, exec_get]
      simp only
      by_cases hMapped : s.mapped ≤ i
      · rw [if_pos hMapped]
        exact fun h => Nat.not_lt_of_le hMapped h.2.2
      · rw [if_neg hMapped]
        exact ⟨⟨by omega, by omega⟩, pixel, rfl, rfl⟩

/-- The loop draws pixel after pixel, and stops at the first one that is not there. -/
theorem exec_drawLogo (pixels : List Pixel) (s : Bga) (n : Nat) :
    match (forM (List.range n) (drawLogoWord pixels)).exec s with
    | (.ok _, t) => Drawable pixels s.mapped n ∧ t = s.drawn pixels n
    | (.error _, _) => ¬Drawable pixels s.mapped n := by
  induction n with
  | zero => exact ⟨⟨Nat.zero_le _, Nat.zero_le _, Nat.zero_le _⟩, rfl⟩
  | succ n ih =>
    rw [List.range_succ, List.forM_append, exec_bind]
    match hLoop : (forM (List.range n) (drawLogoWord pixels)).exec s with
    | (.error _, t) =>
      rw [hLoop] at ih
      exact fun h => ih ⟨by have := h.1; omega, by have := h.2.1; omega, by have := h.2.2; omega⟩
    | (.ok _, t) =>
      rw [hLoop] at ih
      obtain ⟨hDrawable, rfl⟩ := ih
      have hWord := exec_drawLogoWord pixels (s.drawn pixels n) n
      simp only [List.forM_cons, List.forM_nil]
      rw [exec_bind]
      match hNext : (drawLogoWord pixels n).exec (s.drawn pixels n) with
      | (.error _, t) =>
        rw [hNext] at hWord
        exact fun h => hWord ⟨h.1, h.2.1, h.2.2⟩
      | (.ok _, t) =>
        rw [hNext] at hWord
        obtain ⟨⟨hWord, hMapped⟩, pixel, hPixel, rfl⟩ := hWord
        obtain ⟨hLength, -⟩ := List.getElem?_eq_some_iff.mp hPixel
        exact ⟨⟨hWord, hLength, hMapped⟩, s.drawn_succ hPixel⟩

/-! ### The screen -/

/-- The logo is on the screen: every pixel at its place. -/
def Bga.ShowsLogo (s : Bga) (imgWidth imgHeight : UInt32) (pixels : List Pixel) : Prop :=
  ∀ x y, x < imgWidth.toNat → y < imgHeight.toNat →
    ∃ pixel, pixels[y * imgWidth.toNat + x]? = some pixel ∧ s.shown x y = some pixel.color

theorem place_lt {x y width height : Nat} (hx : x < width) (hy : y < height) :
    y * width + x < height * width := by
  have hRows := Nat.mul_le_mul_right width (show y + 1 ≤ height from hy)
  rw [Nat.add_mul, Nat.one_mul] at hRows
  omega

/-- An image whose sides fit in registers of 16 bits is shown; of a larger one the last column or
the last row is missing. -/
theorem showsLogo_iff {imgWidth imgHeight : UInt32} {t : Bga} (hMode : t.InMode imgWidth imgHeight)
    (hDrawable : Drawable pixels t.mapped (imgHeight.toNat * imgWidth.toNat)) :
    (t.drawn pixels (imgHeight.toNat * imgWidth.toNat)).ShowsLogo imgWidth imgHeight pixels ↔
      imgWidth.toNat < 2 ^ 16 ∧ imgHeight.toNat < 2 ^ 16 ∨
        imgWidth.toNat = 0 ∨ imgHeight.toNat = 0 := by
  have hXres : (t.registers vbeDispiIndexXres).toNat = imgWidth.toNat % 2 ^ 16 := by
    rw [hMode.xres, UInt32.toNat_toUInt16]
  have hYres : (t.registers vbeDispiIndexYres).toNat = imgHeight.toNat % 2 ^ 16 := by
    rw [hMode.yres, UInt32.toNat_toUInt16]
  constructor
  · intro hShows
    by_cases hEmpty : imgWidth.toNat = 0 ∨ imgHeight.toNat = 0
    · exact .inr hEmpty
    · -- the last pixel of the last row
      obtain ⟨pixel, -, hLast⟩ :=
        hShows (imgWidth.toNat - 1) (imgHeight.toNat - 1) (by omega) (by omega)
      rw [Bga.shown] at hLast
      split at hLast
      · rename_i hInside
        obtain ⟨-, -, hColumn, hRow⟩ := hInside
        change _ < (t.registers vbeDispiIndexXres).toNat at hColumn
        change _ < (t.registers vbeDispiIndexYres).toNat at hRow
        exact .inl ⟨by omega, by omega⟩
      · cases hLast
  · intro hFits x y hx hy
    have hPlace := place_lt hx hy
    have hIndex : y * imgWidth.toNat + x < pixels.length := Nat.lt_of_lt_of_le hPlace hDrawable.2.1
    refine ⟨_, List.getElem?_eq_getElem hIndex, ?_⟩
    have hWidth : (t.registers vbeDispiIndexXres).toNat = imgWidth.toNat := by omega
    have hHeight : (t.registers vbeDispiIndexYres).toNat = imgHeight.toNat := by omega
    have hShown : (t.drawn pixels (imgHeight.toNat * imgWidth.toNat)).shown x y =
        some ((t.drawn pixels (imgHeight.toNat * imgWidth.toNat)).memory
          (y * (t.registers vbeDispiIndexXres).toNat + x)) :=
      if_pos ⟨hMode.enable, hMode.bpp, by rw [← hWidth] at hx; exact hx,
        by rw [← hHeight] at hy; exact hy⟩
    rw [hShown, hWidth, Bga.drawn_memory, if_pos hPlace, List.getElem?_eq_getElem hIndex]
    rfl

end RixOs
