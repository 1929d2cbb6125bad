import Mathlib.Algebra.Group.Nat.Defs
import RixOs.Panic

/-! The console of `console.rs`, which draws text into the frame buffer.  The glyphs come from
noto_sans_mono_bitmap, whose rasters all have the height that was asked for and rows as wide as
they say.

A string is drawn from the cursor on, one glyph next to the other, and then moves the cursor down
by one pixel row for each byte.  Nothing moves the cursor to the right, so it never comes to the
edge, where it would go back to the top.

Sums and products for an index are natural numbers: all their terms count up, so an intermediate
result overflows only when the index does. -/

namespace RixOs

structure Raster (height : Nat) where
  width : Nat
  rows : List (List UInt8)
  width_pos : 0 < width
  length_rows : rows.length = height
  length_row : ∀ row ∈ rows, row.length = width

/-- `get_raster` with the weight and the height of the console. -/
structure Font where
  rasterHeight : Nat
  getRaster : Char → Option (Raster rasterHeight)
  rasterHeight_pos : 0 < rasterHeight
  space : (getRaster ' ').isSome

/-- The raster that is drawn for a character. -/
def Font.charRaster (font : Font) (c : Char) : Raster font.rasterHeight :=
  match font.getRaster c with
  | some raster => raster
  | none => (font.getRaster ' ').get font.space

structure NotoFontDisplay where
  width : Nat
  height : Nat
  stride : Nat
  drawBuffer : List UInt32
  cursorX : Nat
  cursorY : Nat
  deriving DecidableEq, Repr

namespace NotoFontDisplay

def new (width height stride : Nat) (drawBuffer : List UInt32) : NotoFontDisplay :=
  ⟨width, height, stride, drawBuffer, 0, 0⟩

/-- The pixels of one glyph, in the order in which they are drawn, with their intensities. -/
def glyphPixels (self : NotoFontDisplay) {height : Nat} (charI : Nat) (raster : Raster height) :
    List (Nat × UInt8) :=
  raster.rows.zipIdx.flatMap fun (row, rowI) => row.zipIdx.map fun (intensity, colI) =>
    (charI * raster.width + colI + rowI * self.stride + self.cursorX +
      self.cursorY * self.stride, intensity)

def pixels (font : Font) (self : NotoFontDisplay) (msg : String) : List (Nat × UInt8) :=
  msg.toList.zipIdx.flatMap fun (c, charI) => self.glyphPixels charI (font.charRaster c)

def saturatingAdd (a b : UInt8) : UInt8 := .ofNat (min 255 (a.toNat + b.toNat))

def shade (pixel : UInt32) (intensity : UInt8) : UInt32 :=
  let r := saturatingAdd ((pixel &&& 0xff0000) >>> 16).toUInt8 intensity
  let g := saturatingAdd ((pixel &&& 0xff00) >>> 8).toUInt8 intensity
  let b := saturatingAdd (pixel &&& 0xff).toUInt8 intensity
  (r.toUInt32 <<< 16) + (g.toUInt32 <<< 8) + b.toUInt32

/-- The body of the innermost loop. -/
def drawPixel (buffer : List UInt32) (pixel : Nat × UInt8) : Except Panic (List UInt32) :=
  let (index, intensity) := pixel
  if index < 2 ^ 64 then
    match buffer[index]? with
    | some old => .ok (buffer.set index (shade old intensity))
    | none => .error .indexOutOfBounds
  else .error .arithmeticOverflow

def checkedAdd (a b : Nat) : Except Panic Nat :=
  if a + b < 2 ^ 64 then .ok (a + b) else .error .arithmeticOverflow

def drawString (font : Font) (self : NotoFontDisplay) (msg : String) :
    Except Panic NotoFontDisplay := do
  let drawBuffer ← (self.pixels font msg).foldlM drawPixel self.drawBuffer
  let cursorY ← checkedAdd self.cursorY msg.utf8ByteSize
  if self.width ≤ self.cursorX then
    let cursorX ← checkedAdd self.cursorX font.rasterHeight
    return { self with drawBuffer, cursorX, cursorY := 0 }
  else return { self with drawBuffer, cursorY }

/-- `write_str`, which never fails. -/
def writeStr (font : Font) (self : NotoFontDisplay) (s : String) :
    Except Panic NotoFontDisplay := self.drawString font s

def drawStrings (font : Font) (self : NotoFontDisplay) (msgs : List String) :
    Except Panic NotoFontDisplay :=
  msgs.foldlM (writeStr font) self

variable {font : Font} {self : NotoFontDisplay} {msg : String} {buffer : List UInt32}

theorem mem_glyphPixels {height charI : Nat} {raster : Raster height} {p : Nat × UInt8} :
    p ∈ self.glyphPixels charI raster ↔ ∃ rowI colI row, raster.rows[rowI]? = some row ∧
      row[colI]? = some p.2 ∧ p.1 = charI * raster.width + colI + rowI * self.stride +
        self.cursorX + self.cursorY * self.stride := by
  simp only [glyphPixels, List.mem_flatMap, List.mem_map, Prod.exists,
    List.mk_mem_zipIdx_iff_getElem?]
  constructor
  · rintro ⟨row, rowI, hRow, intensity, colI, hCol, rfl⟩
    exact ⟨rowI, colI, row, hRow, hCol, rfl⟩
  · rintro ⟨rowI, colI, row, hRow, hCol, hIndex⟩
    exact ⟨row, rowI, hRow, p.2, colI, hCol, Prod.ext hIndex.symm rfl⟩

theorem mem_pixels {p : Nat × UInt8} : p ∈ self.pixels font msg ↔
    ∃ charI c, msg.toList[charI]? = some c ∧
      p ∈ self.glyphPixels charI (font.charRaster c) := by
  simp only [pixels, List.mem_flatMap, Prod.exists, List.mk_mem_zipIdx_iff_getElem?]
  exact exists_comm

/-- The index of the lower right pixel of a glyph. -/
def lastPixel (self : NotoFontDisplay) {height : Nat} (charI : Nat) (raster : Raster height) :
    Nat :=
  charI * raster.width + (raster.width - 1) + (height - 1) * self.stride + self.cursorX +
    self.cursorY * self.stride

theorem le_lastPixel {height charI : Nat} {raster : Raster height} {p : Nat × UInt8}
    (h : p ∈ self.glyphPixels charI raster) : p.1 ≤ self.lastPixel charI raster := by
  obtain ⟨rowI, colI, row, hRow, hCol, hIndex⟩ := mem_glyphPixels.mp h
  obtain ⟨hRowI, rfl⟩ := List.getElem?_eq_some_iff.mp hRow
  obtain ⟨hColI, -⟩ := List.getElem?_eq_some_iff.mp hCol
  rw [raster.length_row _ (List.getElem_mem hRowI)] at hColI
  rw [raster.length_rows] at hRowI
  have hRows : rowI * self.stride ≤ (height - 1) * self.stride :=
    Nat.mul_le_mul_right _ (by omega)
  rw [lastPixel, hIndex]
  omega

theorem lastPixel_mem (self : NotoFontDisplay) {height : Nat} (charI : Nat)
    (raster : Raster height) (hHeight : 0 < height) :
    ∃ intensity, (self.lastPixel charI raster, intensity) ∈ self.glyphPixels charI raster := by
  have hRow : height - 1 < raster.rows.length := by
    rw [raster.length_rows]
    omega
  have hCol : raster.width - 1 < raster.rows[height - 1].length := by
    rw [raster.length_row _ (List.getElem_mem hRow)]
    have := raster.width_pos
    omega
  exact ⟨_, mem_glyphPixels.mpr ⟨height - 1, raster.width - 1, _, List.getElem?_eq_getElem hRow,
    List.getElem?_eq_getElem hCol, rfl⟩⟩

theorem drawPixel_ok {p : Nat × UInt8} {out : List UInt32} (h : drawPixel buffer p = .ok out) :
    ∃ old, buffer[p.1]? = some old ∧ p.1 < 2 ^ 64 ∧ out = buffer.set p.1 (shade old p.2) := by
  rw [drawPixel] at h
  split at h
  · split at h
    · exact ⟨_, ‹_›, ‹_›, (Except.ok.inj h).symm⟩
    · cases h
  · cases h

/-- Drawing returns exactly when every index is in bounds, whatever the pixels are. -/
theorem drawPixels_ok_iff (ps : List (Nat × UInt8)) :
    (∃ out, ps.foldlM drawPixel buffer = .ok out) ↔
      ∀ p ∈ ps, p.1 < buffer.length ∧ p.1 < 2 ^ 64 := by
  induction ps generalizing buffer with
  | nil => exact ⟨fun _ _ hMem => (nomatch hMem), fun _ => ⟨buffer, rfl⟩⟩
  | cons p ps ih =>
    rw [List.foldlM_cons, List.forall_mem_cons]
    constructor
    · rintro ⟨out, h⟩
      obtain ⟨next, hNext, h⟩ := Panic.bind_eq_ok h
      obtain ⟨old, hOld, hBound, rfl⟩ := drawPixel_ok hNext
      obtain ⟨hLt, -⟩ := List.getElem?_eq_some_iff.mp hOld
      have hRest := ih.mp ⟨out, h⟩
      rw [List.length_set] at hRest
      exact ⟨⟨hLt, hBound⟩, hRest⟩
    · rintro ⟨⟨hLt, hBound⟩, hRest⟩
      have hNext : drawPixel buffer p = .ok (buffer.set p.1 (shade buffer[p.1] p.2)) := by
        rw [drawPixel]
        simp only [hBound, if_true, List.getElem?_eq_getElem hLt]
      rw [hNext]
      exact ih.mpr (by rwa [List.length_set])

theorem drawPixels_length {ps : List (Nat × UInt8)} {out : List UInt32}
    (h : ps.foldlM drawPixel buffer = .ok out) : out.length = buffer.length := by
  induction ps generalizing buffer with
  | nil => rw [← Except.ok.inj h]
  | cons p ps ih =>
    rw [List.foldlM_cons] at h
    obtain ⟨next, hNext, h⟩ := Panic.bind_eq_ok h
    obtain ⟨old, -, -, rfl⟩ := drawPixel_ok hNext
    rw [ih h, List.length_set]

theorem checkedAdd_ok {a b c : Nat} : checkedAdd a b = .ok c ↔ a + b < 2 ^ 64 ∧ c = a + b := by
  rw [checkedAdd]
  split
  · exact ⟨fun h => ⟨‹_›, (Except.ok.inj h).symm⟩, fun h => h.2 ▸ rfl⟩
  · exact ⟨nofun, fun h => absurd h.1 ‹_›⟩

/-- While the cursor is left of the edge, a string moves it down by its bytes. -/
theorem drawString_ok_iff (hCursor : self.cursorX < self.width) {out : NotoFontDisplay} :
    self.drawString font msg = .ok out ↔ ∃ drawBuffer,
      (self.pixels font msg).foldlM drawPixel self.drawBuffer = .ok drawBuffer ∧
        self.cursorY + msg.utf8ByteSize < 2 ^ 64 ∧
        out = { self with drawBuffer, cursorY := self.cursorY + msg.utf8ByteSize } := by
  rw [drawString]
  constructor
  · intro h
    obtain ⟨drawBuffer, hDraw, h⟩ := Panic.bind_eq_ok h
    obtain ⟨cursorY, hAdd, h⟩ := Panic.bind_eq_ok h
    obtain ⟨hLt, rfl⟩ := checkedAdd_ok.mp hAdd
    rw [if_neg (by omega)] at h
    exact ⟨drawBuffer, hDraw, hLt, (Except.ok.inj h).symm⟩
  · rintro ⟨drawBuffer, hDraw, hLt, rfl⟩
    rw [hDraw, Panic.bind_ok, checkedAdd_ok.mpr ⟨hLt, rfl⟩, Panic.bind_ok, if_neg (by omega)]
    rfl

end NotoFontDisplay

/-! ### Strings in a row -/

/-- The geometry of a frame buffer that holds at least one glyph. -/
structure Geometry (font : Font) (width height stride : Nat) : Prop where
  glyph_le : ∀ c raster, font.getRaster c = some raster → raster.width ≤ width
  width_le : width ≤ stride
  rasterHeight_le : font.rasterHeight ≤ height
  /-- The length of a slice is a `usize`. -/
  size_lt : stride * height < 2 ^ 64

/-- The bytes of the strings, which is the row that the cursor is in after them. -/
def rowsOf : List String → Nat
  | [] => 0
  | msg :: msgs => msg.utf8ByteSize + rowsOf msgs

/-- Every string fits where the cursor is when it is drawn: the last pixel row of its last glyph,
counted from the row that the strings before it lead to, ends inside the buffer. -/
def Fits (font : Font) (height stride : Nat) (msgs : List String) : Prop :=
  rowsOf msgs < 2 ^ 64 ∧ ∀ before msg after, msgs = before ++ msg :: after →
    ∀ charI c, msg.toList[charI]? = some c →
      (charI + 1) * (font.charRaster c).width +
        (font.rasterHeight - 1 + rowsOf before) * stride ≤ stride * height

namespace NotoFontDisplay

variable {font : Font} {self : NotoFontDisplay} {msg : String} {width height stride : Nat}

theorem width_pos (hGeometry : Geometry font width height stride) : 0 < width := by
  obtain ⟨raster, hSpace⟩ := Option.isSome_iff_exists.mp font.space
  exact Nat.lt_of_lt_of_le raster.width_pos (hGeometry.glyph_le ' ' raster hSpace)

/-- The display after strings that took `rows` bytes. -/
structure At (width height stride rows : Nat) (display : NotoFontDisplay) : Prop where
  width_eq : display.width = width
  stride_eq : display.stride = stride
  cursorX_eq : display.cursorX = 0
  cursorY_eq : display.cursorY = rows
  length_eq : display.drawBuffer.length = stride * height

theorem pixels_bounded_iff {n : Nat} : (∀ p ∈ self.pixels font msg, p.1 < n) ↔
    ∀ charI c, msg.toList[charI]? = some c → self.lastPixel charI (font.charRaster c) < n := by
  constructor
  · intro h charI c hc
    obtain ⟨intensity, hMem⟩ :=
      lastPixel_mem self charI (font.charRaster c) font.rasterHeight_pos
    exact h _ (mem_pixels.mpr ⟨charI, c, hc, hMem⟩)
  · intro h p hp
    obtain ⟨charI, c, hc, hMem⟩ := mem_pixels.mp hp
    exact Nat.lt_of_le_of_lt (le_lastPixel hMem) (h charI c hc)

variable {rows : Nat}

theorem lastPixel_lt_iff (h : At width height stride rows self) {charI n : Nat} (c : Char) :
    self.lastPixel charI (font.charRaster c) < n ↔ (charI + 1) * (font.charRaster c).width +
      (font.rasterHeight - 1 + rows) * stride ≤ n := by
  have hWidth := (font.charRaster c).width_pos
  rw [lastPixel, h.stride_eq, h.cursorX_eq, h.cursorY_eq, Nat.add_mul, Nat.add_mul, Nat.one_mul]
  omega

section Strings

variable (hGeometry : Geometry font width height stride) (h : At width height stride rows self)
include hGeometry h

theorem At.cursor_lt : self.cursorX < self.width := by
  rw [h.cursorX_eq, h.width_eq]
  exact width_pos hGeometry

theorem drawString_returns_iff :
    (∃ out, self.drawString font msg = .ok out) ↔ rows + msg.utf8ByteSize < 2 ^ 64 ∧
      ∀ charI c, msg.toList[charI]? = some c → (charI + 1) * (font.charRaster c).width +
        (font.rasterHeight - 1 + rows) * stride ≤ stride * height := by
  have hSize := hGeometry.size_lt
  have hFold : (∃ drawBuffer, (self.pixels font msg).foldlM drawPixel self.drawBuffer =
      .ok drawBuffer) ↔ ∀ p ∈ self.pixels font msg, p.1 < stride * height := by
    rw [drawPixels_ok_iff, h.length_eq]
    exact forall₂_congr fun _ _ => and_iff_left_of_imp fun hLt => by omega
  simp only [drawString_ok_iff (h.cursor_lt hGeometry), h.cursorY_eq]
  rw [pixels_bounded_iff] at hFold
  simp only [lastPixel_lt_iff h] at hFold
  rw [← hFold]
  constructor
  · rintro ⟨out, drawBuffer, hDraw, hLt, -⟩
    exact ⟨hLt, drawBuffer, hDraw⟩
  · rintro ⟨hLt, drawBuffer, hDraw⟩
    exact ⟨_, drawBuffer, hDraw, hLt, rfl⟩

theorem At.drawString {out : NotoFontDisplay} (hDraw : self.drawString font msg = .ok out) :
    At width height stride (rows + msg.utf8ByteSize) out := by
  obtain ⟨drawBuffer, hFold, -, rfl⟩ := (drawString_ok_iff (h.cursor_lt hGeometry)).mp hDraw
  exact ⟨h.width_eq, h.stride_eq, h.cursorX_eq, by rw [h.cursorY_eq],
    (drawPixels_length hFold).trans h.length_eq⟩

end Strings

/-- `Fits` with `rows` bytes before the strings. -/
def FitsFrom (font : Font) (height stride rows : Nat) (msgs : List String) : Prop :=
  rows + rowsOf msgs < 2 ^ 64 ∧ ∀ before msg after, msgs = before ++ msg :: after →
    ∀ charI c, msg.toList[charI]? = some c →
      (charI + 1) * (font.charRaster c).width +
        (font.rasterHeight - 1 + (rows + rowsOf before)) * stride ≤ stride * height

theorem fitsFrom_cons {msgs : List String} :
    FitsFrom font height stride rows (msg :: msgs) ↔
      (rows + msg.utf8ByteSize < 2 ^ 64 ∧ ∀ charI c, msg.toList[charI]? = some c →
        (charI + 1) * (font.charRaster c).width + (font.rasterHeight - 1 + rows) * stride ≤
          stride * height) ∧
      FitsFrom font height stride (rows + msg.utf8ByteSize) msgs := by
  simp only [FitsFrom, rowsOf]
  constructor
  · rintro ⟨hRows, hFits⟩
    refine ⟨⟨by omega, hFits [] msg msgs rfl⟩, by omega, fun before msg' after hMsgs => ?_⟩
    have hNext := hFits (msg :: before) msg' after (by rw [hMsgs]; rfl)
    rwa [rowsOf, ← Nat.add_assoc rows] at hNext
  · rintro ⟨⟨-, hFirst⟩, hRows, hFits⟩
    refine ⟨by omega, fun before msg' after hMsgs => ?_⟩
    match before, hMsgs with
    | [], hMsgs =>
      obtain ⟨rfl, rfl⟩ := List.cons.inj hMsgs
      exact hFirst
    | _ :: before, hMsgs =>
      obtain ⟨rfl, rfl⟩ := List.cons.inj hMsgs
      rw [rowsOf, ← Nat.add_assoc rows]
      exact hFits before msg' after rfl

theorem drawStrings_returns_iff (hGeometry : Geometry font width height stride)
    (msgs : List String) (h : At width height stride rows self) (hRows : rows < 2 ^ 64) :
    (∃ out, self.drawStrings font msgs = .ok out) ↔ FitsFrom font height stride rows msgs := by
  induction msgs generalizing self rows with
  | nil => exact ⟨fun _ => ⟨hRows, by simp⟩, fun _ => ⟨self, rfl⟩⟩
  | cons msg msgs ih =>
    rw [drawStrings, List.foldlM_cons, fitsFrom_cons, ← drawString_returns_iff hGeometry h]
    constructor
    · rintro ⟨out, hOut⟩
      obtain ⟨next, hNext, hOut⟩ := Panic.bind_eq_ok hOut
      have hBound := ((drawString_returns_iff hGeometry h).mp ⟨next, hNext⟩).1
      exact ⟨⟨next, hNext⟩, (ih (h.drawString hGeometry hNext) hBound).mp ⟨out, hOut⟩⟩
    · rintro ⟨⟨next, hNext⟩, hRest⟩
      have hBound := ((drawString_returns_iff hGeometry h).mp ⟨next, hNext⟩).1
      rw [writeStr, hNext]
      exact (ih (h.drawString hGeometry hNext) hBound).mpr hRest

/-- Strings drawn on a new console never leave the buffer exactly when each of them fits where the
bytes before it have moved the cursor. -/
theorem draws_iff_fits (hGeometry : Geometry font width height stride) (buffer : List UInt32)
    (hLength : buffer.length = stride * height) (msgs : List String) :
    (∃ out, (new width height stride buffer).drawStrings font msgs = .ok out) ↔
      Fits font height stride msgs := by
  have hNew : At width height stride 0 (new width height stride buffer) :=
    ⟨rfl, rfl, rfl, rfl, hLength⟩
  rw [drawStrings_returns_iff hGeometry msgs hNew (by decide)]
  simp only [FitsFrom, Fits, Nat.zero_add]

/-- Blank glyphs of 24 rows and 14 columns. -/
def blankFont : Font where
  rasterHeight := 24
  getRaster _ := some ⟨14, List.replicate 24 (List.replicate 14 0), by decide, by decide, by decide⟩
  rasterHeight_pos := by decide
  space := rfl

theorem blankFont_geometry {width height stride : Nat} (hWidth : 14 ≤ width)
    (hStride : width ≤ stride) (hHeight : 24 ≤ height) (hSize : stride * height < 2 ^ 64) :
    Geometry blankFont width height stride := by
  refine ⟨fun c raster hRaster => ?_, hStride, hHeight, hSize⟩
  obtain rfl := Option.some.inj hRaster
  exact hWidth

theorem draws_iff_fits_message : ∃ out,
    (new 1280 720 1280 (List.replicate (1280 * 720) 0xff408deb)).drawStrings blankFont
      ["Kernel Message"] = .ok out := by
  refine (draws_iff_fits (blankFont_geometry (by decide) (by decide) (by decide) (by decide)) _
    List.length_replicate _).mpr ⟨by decide, fun before msg after hMsgs charI c hc => ?_⟩
  have hBefore : before = [] ∧ msg = "Kernel Message" := by
    match before, hMsgs with
    | [], hMsgs => exact ⟨rfl, (List.cons.inj hMsgs).1.symm⟩
    | _ :: before, hMsgs => simp at hMsgs
  obtain ⟨rfl, rfl⟩ := hBefore
  obtain ⟨hChar, -⟩ := List.getElem?_eq_some_iff.mp hc
  have hChar : charI < 14 := hChar
  change (charI + 1) * 14 + (24 - 1 + 0) * 1280 ≤ 1280 * 720
  omega

/-- On a frame buffer of exactly one glyph, the second string of one byte panics. -/
theorem second_string_panics : Geometry blankFont 14 24 14 ∧
    ¬∃ out, (new 14 24 14 (List.replicate (14 * 24) 0xff408deb)).drawStrings blankFont
      ["a", "b"] = .ok out := by
  have hGeometry : Geometry blankFont 14 24 14 :=
    blankFont_geometry (by decide) (by decide) (by decide) (by decide)
  refine ⟨hGeometry, fun hOut => ?_⟩
  obtain ⟨-, hFits⟩ := (drawStrings_returns_iff hGeometry _
    ⟨rfl, rfl, rfl, rfl, List.length_replicate⟩ (by decide : 0 < 2 ^ 64)).mp hOut
  exact absurd (hFits ["a"] "b" [] rfl 0 'b' rfl) (by decide)

end NotoFontDisplay

end RixOs
