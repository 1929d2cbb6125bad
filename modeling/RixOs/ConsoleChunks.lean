import Mathlib.Data.List.Basic
import RixOs.Console

/-! Whether the console shows the same text when a formatter hands it over in pieces.  Within one
string the glyphs go to the right, from one string to the next the cursor goes down, so the two
agree only when a step down by the bytes of the first piece is a step right by its glyphs.  The
glyphs have one width, as in any monospaced font. -/

namespace RixOs

namespace NotoFontDisplay

variable {font : Font} {self : NotoFontDisplay} {s t msg : String} {buffer out : List UInt32}
  {ps : List (Nat × UInt8)} {w : Nat}

/-- Two pieces of one text. -/
def drawChunks (font : Font) (self : NotoFontDisplay) (s t : String) :
    Except Panic NotoFontDisplay := do
  let self ← self.writeStr font s
  self.writeStr font t

/-! ### Which pixels a run touches -/

theorem shade_lt (pixel : UInt32) (intensity : UInt8) : (shade pixel intensity).toNat < 2 ^ 24 := by
  have hSum : ∀ r g b : UInt8,
      ((r.toUInt32 <<< 16) + (g.toUInt32 <<< 8) + b.toUInt32).toNat < 2 ^ 24 := by
    intro r g b
    have hr := r.toNat_lt
    have hg := g.toNat_lt
    have hb := b.toNat_lt
    simp only [UInt32.toNat_add, UInt32.toNat_shiftLeft, UInt8.toNat_toUInt32, UInt32.reduceToNat,
      Nat.reduceMod, Nat.shiftLeft_eq]
    omega
  exact hSum ..

theorem drawPixels_untouched {i : Nat} (h : ps.foldlM drawPixel buffer = .ok out)
    (hNe : ∀ p ∈ ps, p.1 ≠ i) : out[i]? = buffer[i]? := by
  induction ps generalizing buffer with
  | nil => rw [← Except.ok.inj h]
  | cons p ps ih =>
    rw [List.foldlM_cons] at h
    obtain ⟨next, hNext, h⟩ := Panic.bind_eq_ok h
    obtain ⟨old, -, -, rfl⟩ := drawPixel_ok hNext
    rw [List.forall_mem_cons] at hNe
    rw [ih h hNe.2, List.getElem?_set_ne hNe.1]

/-- A touched pixel loses its top byte, and no later pixel gives it back. -/
theorem drawPixels_touched {i : Nat} (h : ps.foldlM drawPixel buffer = .ok out)
    (hTouched : (∃ p ∈ ps, p.1 = i) ∨ ∃ v, buffer[i]? = some v ∧ v.toNat < 2 ^ 24) :
    ∃ v, out[i]? = some v ∧ v.toNat < 2 ^ 24 := by
  induction ps generalizing buffer with
  | nil =>
    rcases hTouched with ⟨p, hp, -⟩ | hTouched
    · cases hp
    · rwa [← Except.ok.inj h]
  | cons p ps ih =>
    rw [List.foldlM_cons] at h
    obtain ⟨next, hNext, h⟩ := Panic.bind_eq_ok h
    obtain ⟨old, hOld, -, rfl⟩ := drawPixel_ok hNext
    obtain ⟨hLt, -⟩ := List.getElem?_eq_some_iff.mp hOld
    apply ih h
    by_cases hi : p.1 = i
    · subst hi
      exact .inr ⟨_, List.getElem?_set_self hLt, shade_lt ..⟩
    · rw [List.getElem?_set_ne hi]
      refine hTouched.imp_left ?_
      rintro ⟨q, hq, hqi⟩
      rcases List.mem_cons.mp hq with rfl | hq
      · exact absurd hqi hi
      · exact ⟨q, hq, hqi⟩

/-- Where all pixels have a top byte, a pixel that one of two runs touches and the other does not
tells them apart. -/
theorem drawPixels_ne {qs : List (Nat × UInt8)} {out' : List UInt32} {p : Nat × UInt8}
    (hFresh : ∀ v ∈ buffer, 2 ^ 24 ≤ v.toNat) (h : ps.foldlM drawPixel buffer = .ok out)
    (h' : qs.foldlM drawPixel buffer = .ok out') (hp : p ∈ ps) (hOnly : ∀ q ∈ qs, q.1 ≠ p.1) :
    out ≠ out' := by
  rintro rfl
  obtain ⟨v, hv, hTop⟩ := drawPixels_touched h (.inl ⟨p, hp, rfl⟩)
  rw [drawPixels_untouched h' hOnly] at hv
  exact absurd hTop (Nat.not_lt_of_le (hFresh v (List.mem_of_getElem? hv)))

/-- Pixels depend on the stride and on the place where the text starts alone. -/
theorem glyphPixels_congr {d d' : NotoFontDisplay} {height charI charI' : Nat}
    {raster : Raster height} (hStride : d.stride = d'.stride)
    (hStart : charI * raster.width + d.cursorX + d.cursorY * d.stride =
      charI' * raster.width + d'.cursorX + d'.cursorY * d'.stride) :
    d.glyphPixels charI raster = d'.glyphPixels charI' raster := by
  refine List.flatMap_congr fun ⟨row, rowI⟩ _ => List.map_congr_left fun ⟨intensity, colI⟩ _ => ?_
  simp only [Prod.mk.injEq, and_true]
  rw [hStride] at hStart ⊢
  omega

theorem pixels_congr {d d' : NotoFontDisplay} (hStride : d.stride = d'.stride)
    (hStart : d.cursorX + d.cursorY * d.stride = d'.cursorX + d'.cursorY * d'.stride) :
    d.pixels font msg = d'.pixels font msg :=
  List.flatMap_congr fun _ _ => glyphPixels_congr hStride (by omega)

/-! ### Where a text ends -/

/-- One past the last pixel of a text whose glyphs are `w` pixels wide. -/
def extent (font : Font) (self : NotoFontDisplay) (w : Nat) (msg : String) : Nat :=
  msg.length * w + (font.rasterHeight - 1) * self.stride + self.cursorX +
    self.cursorY * self.stride

section Monospace

variable (hMono : ∀ c raster, font.getRaster c = some raster → raster.width = w)
include hMono

theorem charRaster_width (c : Char) : (font.charRaster c).width = w := by
  rw [Font.charRaster]
  split
  · exact hMono c _ ‹_›
  · exact hMono ' ' _ (Option.some_get _).symm

theorem textWidth_pos (hMsg : msg ≠ "") : 0 < msg.length * w := by
  have hWidth := (font.charRaster ' ').width_pos
  rw [charRaster_width hMono] at hWidth
  have hLength : msg.length ≠ 0 := fun hZero => hMsg (String.length_eq_zero_iff.mp hZero)
  exact Nat.mul_pos (Nat.pos_of_ne_zero hLength) hWidth

theorem lt_extent {p : Nat × UInt8} (hp : p ∈ self.pixels font msg) :
    p.1 < self.extent font w msg := by
  obtain ⟨charI, c, hc, hMem⟩ := mem_pixels.mp hp
  have hLast := le_lastPixel hMem
  have hWidth := (font.charRaster c).width_pos
  obtain ⟨hCharI, -⟩ := List.getElem?_eq_some_iff.mp hc
  have hGlyphs : (charI + 1) * w ≤ msg.length * w :=
    Nat.mul_le_mul_right w (by rwa [← String.length_toList])
  rw [lastPixel, charRaster_width hMono] at hLast
  rw [charRaster_width hMono] at hWidth
  rw [Nat.add_mul, Nat.one_mul] at hGlyphs
  rw [extent]
  omega

theorem extent_touched (self : NotoFontDisplay) (hMsg : msg ≠ "") :
    ∃ p ∈ self.pixels font msg, p.1 + 1 = self.extent font w msg := by
  have hLength : 0 < msg.toList.length := by
    rw [List.length_pos_iff]
    simpa using hMsg
  obtain ⟨c, hc⟩ : ∃ c, msg.toList[msg.toList.length - 1]? = some c :=
    ⟨_, List.getElem?_eq_getElem (by omega)⟩
  obtain ⟨intensity, hMem⟩ :=
    lastPixel_mem self (msg.toList.length - 1) (font.charRaster c) font.rasterHeight_pos
  refine ⟨_, mem_pixels.mpr ⟨_, c, hc, hMem⟩, ?_⟩
  have hWidth := (font.charRaster c).width_pos
  rw [charRaster_width hMono] at hWidth
  have hGlyphs : (msg.toList.length - 1) * w + w = msg.length * w := by
    rw [← Nat.succ_mul, Nat.succ_eq_add_one, Nat.sub_add_cancel hLength, String.length_toList]
  simp only [lastPixel, charRaster_width hMono, extent]
  omega

theorem pixels_append : self.pixels font (s ++ t) = self.pixels font s ++
    pixels font { self with cursorX := self.cursorX + s.length * w } t := by
  rw [pixels, String.toList_append, List.zipIdx_append, List.flatMap_append, ← pixels,
    List.zipIdx_eq_map_add, List.flatMap_map, pixels]
  congr 1
  refine List.flatMap_congr fun x _ => glyphPixels_congr rfl ?_
  obtain ⟨c, charI⟩ := x
  simp only [charRaster_width hMono, String.length_toList, Nat.zero_add, Nat.add_mul]
  omega

end Monospace

/-! ### Two runs -/

theorem drawChunks_ok_iff (hCursor : self.cursorX < self.width) {out : NotoFontDisplay} :
    self.drawChunks font s t = .ok out ↔ ∃ first drawBuffer,
      (self.pixels font s).foldlM drawPixel self.drawBuffer = .ok first ∧
      (pixels font { self with cursorY := self.cursorY + s.utf8ByteSize } t).foldlM drawPixel
        first = .ok drawBuffer ∧
      self.cursorY + s.utf8ByteSize + t.utf8ByteSize < 2 ^ 64 ∧
      out = { self with
        drawBuffer, cursorY := self.cursorY + s.utf8ByteSize + t.utf8ByteSize } := by
  constructor
  · intro h
    obtain ⟨next, hFirst, hSecond⟩ := Panic.bind_eq_ok h
    obtain ⟨first, hFold, -, rfl⟩ := (drawString_ok_iff hCursor).mp hFirst
    obtain ⟨drawBuffer, hFold', hLt, rfl⟩ := (drawString_ok_iff (by exact hCursor)).mp hSecond
    exact ⟨first, drawBuffer, hFold, hFold', hLt, rfl⟩
  · rintro ⟨first, drawBuffer, hFold, hFold', hLt, rfl⟩
    have hFirst := (drawString_ok_iff hCursor).mpr ⟨first, hFold, by omega, rfl⟩
    rw [drawChunks, writeStr, hFirst, Panic.bind_ok]
    exact (drawString_ok_iff (by exact hCursor)).mpr ⟨drawBuffer, hFold', hLt, rfl⟩

/-- Past the edge every string moves the cursor, so two pieces move it twice. -/
theorem drawString_past_edge (hCursor : self.width ≤ self.cursorX) {out : NotoFontDisplay}
    (h : self.drawString font msg = .ok out) :
    out.cursorX = self.cursorX + font.rasterHeight ∧ out.width = self.width := by
  obtain ⟨drawBuffer, -, h⟩ := Panic.bind_eq_ok h
  obtain ⟨cursorY, -, h⟩ := Panic.bind_eq_ok h
  rw [if_pos hCursor] at h
  obtain ⟨cursorX, hAdd, h⟩ := Panic.bind_eq_ok h
  obtain ⟨-, rfl⟩ := checkedAdd_ok.mp hAdd
  rw [← Except.ok.inj h]
  exact ⟨rfl, rfl⟩

theorem chunks_differ_past_edge (hCursor : self.width ≤ self.cursorX) {out out' : NotoFontDisplay}
    (hChunks : self.drawChunks font s t = .ok out) (hWhole : self.drawString font msg = .ok out') :
    out.cursorX ≠ out'.cursorX := by
  obtain ⟨next, hFirst, hSecond⟩ := Panic.bind_eq_ok hChunks
  obtain ⟨hNext, hWidth⟩ := drawString_past_edge hCursor hFirst
  obtain ⟨hOut, -⟩ := drawString_past_edge (by omega) hSecond
  obtain ⟨hOut', -⟩ := drawString_past_edge hCursor hWhole
  have hPos := font.rasterHeight_pos
  omega

section Monospace

variable (hMono : ∀ c raster, font.getRaster c = some raster → raster.width = w)
include hMono

/-- On pixels that have a top byte, texts with different ends leave different traces: the last
pixel of the longer one is out of reach of the other. -/
theorem chunks_differ (hCursor : self.cursorX < self.width) {n : Nat} {pixel : UInt32}
    (hPixel : 2 ^ 24 ≤ pixel.toNat) (hBuffer : self.drawBuffer = List.replicate n pixel)
    (ht : t ≠ "") (hStep : s.length * w ≠ s.utf8ByteSize * self.stride)
    {out out' : NotoFontDisplay} (hChunks : self.drawChunks font s t = .ok out)
    (hWhole : self.drawString font (s ++ t) = .ok out') : out.drawBuffer ≠ out'.drawBuffer := by
  obtain ⟨first, drawBuffer, hFirst, hSecond, -, rfl⟩ := (drawChunks_ok_iff hCursor).mp hChunks
  obtain ⟨drawBuffer', hFold, -, rfl⟩ := (drawString_ok_iff hCursor).mp hWhole
  have hBoth : (self.pixels font s ++
      pixels font { self with cursorY := self.cursorY + s.utf8ByteSize } t).foldlM drawPixel
        self.drawBuffer = .ok drawBuffer := by
    rw [List.foldlM_append, hFirst]
    exact hSecond
  have hFresh : ∀ v ∈ self.drawBuffer, 2 ^ 24 ≤ v.toNat := by
    intro v hv
    rw [hBuffer] at hv
    rwa [List.eq_of_mem_replicate hv]
  have hLength : (s ++ t).length * w = s.length * w + t.length * w := by
    rw [String.length_append, Nat.add_mul]
  have hDown : (self.cursorY + s.utf8ByteSize) * self.stride =
      self.cursorY * self.stride + s.utf8ByteSize * self.stride := Nat.add_mul ..
  have hText := textWidth_pos hMono ht
  rcases Nat.lt_or_gt_of_ne hStep with hLt | hGt
  · obtain ⟨p, hp, hLast⟩ := extent_touched hMono
      { self with cursorY := self.cursorY + s.utf8ByteSize } ht
    refine drawPixels_ne hFresh hBoth hFold (List.mem_append_right _ hp) fun q hq => ?_
    have hEnd := lt_extent hMono hq
    simp only [extent] at hLast hEnd
    omega
  · obtain ⟨p, hp, hLast⟩ := extent_touched hMono self (by simp [ht] : s ++ t ≠ "")
    refine (drawPixels_ne hFresh hFold hBoth hp fun q hq => ?_).symm
    rcases List.mem_append.mp hq with hq | hq
    · have hEnd := lt_extent hMono hq
      simp only [extent] at hLast hEnd
      omega
    · have hEnd := lt_extent hMono hq
      simp only [extent] at hLast hEnd
      omega

/-- Where a step down by the bytes of `s` is a step right by its glyphs, the second piece lies
where it lies in the whole. -/
theorem pixels_chunks (self : NotoFontDisplay)
    (hStep : t = "" ∨ s.length * w = s.utf8ByteSize * self.stride) :
    self.pixels font (s ++ t) = self.pixels font s ++
      pixels font { self with cursorY := self.cursorY + s.utf8ByteSize } t := by
  rcases hStep with rfl | hStep
  · rw [String.append_empty]
    exact (List.append_nil _).symm
  · rw [pixels_append hMono]
    congr 1
    refine pixels_congr rfl ?_
    simp only [Nat.add_mul, ← hStep]
    omega

end Monospace

/-- Whether a run panics depends on the length of the frame buffer, not on its pixels. -/
theorem drawPixels_returns {buffer' : List UInt32} (hLength : buffer'.length = buffer.length)
    (h : ps.foldlM drawPixel buffer = .ok out) :
    ∃ out', ps.foldlM drawPixel buffer' = .ok out' := by
  rw [drawPixels_ok_iff, hLength]
  exact (drawPixels_ok_iff ps).mp ⟨out, h⟩

theorem drawString_returns (hCursor : self.cursorX < self.width)
    (hLength : buffer.length = self.drawBuffer.length)
    (h : ∃ out, self.drawString font msg = .ok out) :
    ∃ out, drawString font { self with drawBuffer := buffer } msg = .ok out := by
  obtain ⟨out, h⟩ := h
  obtain ⟨drawBuffer, hFold, hLt, -⟩ := (drawString_ok_iff hCursor).mp h
  obtain ⟨drawBuffer', hFold'⟩ := drawPixels_returns hLength hFold
  exact ⟨_, (drawString_ok_iff (by exact hCursor)).mpr ⟨drawBuffer', hFold', hLt, rfl⟩⟩

theorem drawChunks_returns (hCursor : self.cursorX < self.width)
    (hLength : buffer.length = self.drawBuffer.length)
    (h : ∃ out, self.drawChunks font s t = .ok out) :
    ∃ out, drawChunks font { self with drawBuffer := buffer } s t = .ok out := by
  obtain ⟨out, h⟩ := h
  obtain ⟨first, drawBuffer, hFirst, hSecond, hLt, -⟩ := (drawChunks_ok_iff hCursor).mp h
  obtain ⟨first', hFirst'⟩ := drawPixels_returns hLength hFirst
  have hLength' : first'.length = first.length := by
    rw [drawPixels_length hFirst, drawPixels_length hFirst', hLength]
  obtain ⟨drawBuffer', hSecond'⟩ := drawPixels_returns hLength' hSecond
  exact ⟨_, (drawChunks_ok_iff (by exact hCursor)).mpr
    ⟨first', drawBuffer', hFirst', hSecond', hLt, rfl⟩⟩

/-- Two pieces and the whole text leave the same frame buffer and cursor, whatever was on the
screen, exactly when the cursor is left of the edge and the second piece is empty or the step down
after the first piece is as long as its glyphs. -/
theorem chunks_iff (hMono : ∀ c raster, font.getRaster c = some raster → raster.width = w)
    (hChunks : ∃ out, self.drawChunks font s t = .ok out)
    (hWhole : ∃ out, self.drawString font (s ++ t) = .ok out) :
    (∀ buffer, buffer.length = self.drawBuffer.length →
        drawChunks font { self with drawBuffer := buffer } s t =
          drawString font { self with drawBuffer := buffer } (s ++ t)) ↔
      self.cursorX < self.width ∧ (t = "" ∨ s.length * w = s.utf8ByteSize * self.stride) := by
  constructor
  · intro hAll
    have hCursor : self.cursorX < self.width := by
      by_contra hCursor
      obtain ⟨out, hOut⟩ := hChunks
      have hOut' := (hAll self.drawBuffer rfl).symm.trans hOut
      exact chunks_differ_past_edge (Nat.le_of_not_lt hCursor) hOut hOut' rfl
    refine ⟨hCursor, ?_⟩
    by_contra hStep
    rw [not_or] at hStep
    have hLength : (List.replicate self.drawBuffer.length (0xff000000 : UInt32)).length =
        self.drawBuffer.length := List.length_replicate
    obtain ⟨out, hOut⟩ := drawChunks_returns hCursor hLength hChunks
    exact chunks_differ hMono (by exact hCursor)
      (by decide : 2 ^ 24 ≤ (0xff000000 : UInt32).toNat) rfl hStep.1 (by exact hStep.2) hOut
      ((hAll _ hLength).symm.trans hOut) rfl
  · rintro ⟨hCursor, hStep⟩ buffer hLength
    obtain ⟨out, hOut⟩ := drawString_returns hCursor hLength hWhole
    rw [hOut]
    obtain ⟨drawBuffer, hFold, hLt, rfl⟩ := (drawString_ok_iff (by exact hCursor)).mp hOut
    rw [pixels_chunks hMono { self with drawBuffer := buffer } hStep, List.foldlM_append] at hFold
    obtain ⟨first, hFirst, hSecond⟩ := Panic.bind_eq_ok hFold
    rw [String.utf8ByteSize_append, ← Nat.add_assoc] at hLt ⊢
    exact (drawChunks_ok_iff (by exact hCursor)).mpr ⟨first, drawBuffer, hFirst, hSecond, hLt, rfl⟩

theorem blankFont_mono (c : Char) (raster : Raster blankFont.rasterHeight)
    (h : blankFont.getRaster c = some raster) : raster.width = 14 := by
  rw [← Option.some.inj h]

theorem blankFont_draws {width height stride rows : Nat}
    (hGeometry : Geometry blankFont width height stride) (h : At width height stride rows self)
    (hRows : rows + msg.utf8ByteSize < 2 ^ 64)
    (hFits : msg.length * 14 + (23 + rows) * stride ≤ stride * height) :
    ∃ out, self.drawString blankFont msg = .ok out ∧
      At width height stride (rows + msg.utf8ByteSize) out := by
  have hGlyphs : ∀ charI c, msg.toList[charI]? = some c →
      (charI + 1) * (blankFont.charRaster c).width + (blankFont.rasterHeight - 1 + rows) * stride ≤
        stride * height := by
    intro charI c hc
    obtain ⟨hCharI, -⟩ := List.getElem?_eq_some_iff.mp hc
    rw [String.length_toList] at hCharI
    rw [charRaster_width blankFont_mono]
    change (charI + 1) * 14 + (23 + rows) * stride ≤ stride * height
    omega
  obtain ⟨out, hOut⟩ := (drawString_returns_iff hGeometry h).mpr ⟨hRows, hGlyphs⟩
  exact ⟨out, hOut, h.drawString hGeometry hOut⟩

/-- Two letters on a screen that holds them next to each other, and below each other. -/
theorem draws_letters {width height stride : Nat}
    (hGeometry : Geometry blankFont width height stride)
    (hBeside : 28 + 23 * stride ≤ stride * height) (hBelow : 14 + 24 * stride ≤ stride * height)
    {buffer : List UInt32} (hLength : buffer.length = stride * height) :
    (∃ out, (new width height stride buffer).drawChunks blankFont "a" "b" = .ok out) ∧
      ∃ out, (new width height stride buffer).drawString blankFont ("a" ++ "b") = .ok out := by
  have hNew : At width height stride 0 (new width height stride buffer) :=
    ⟨rfl, rfl, rfl, rfl, hLength⟩
  obtain ⟨next, hNext, hAt⟩ : ∃ out, _ ∧ At width height stride (0 + "a".utf8ByteSize) out :=
    blankFont_draws hGeometry hNew (by decide) (by rw [show "a".length = 1 from rfl]; omega)
  obtain ⟨out, hOut, -⟩ : ∃ out, next.drawString blankFont "b" = .ok out ∧ _ :=
    blankFont_draws hGeometry hAt (by decide)
      (by rw [show "b".length = 1 from rfl, show "a".utf8ByteSize = 1 from rfl]; omega)
  obtain ⟨out', hOut', -⟩ : ∃ out,
      (new width height stride buffer).drawString blankFont ("a" ++ "b") = .ok out ∧ _ :=
    blankFont_draws hGeometry hNew (by decide)
      (by rw [show ("a" ++ "b").length = 2 from rfl]; omega)
  refine ⟨⟨out, ?_⟩, out', hOut'⟩
  rw [drawChunks, writeStr, hNext]
  exact hOut

theorem chunks_iff_column :
    (new 14 25 14 (List.replicate (14 * 25) 0xff408deb)).drawChunks blankFont "a" "b" =
      (new 14 25 14 (List.replicate (14 * 25) 0xff408deb)).drawString blankFont ("a" ++ "b") := by
  have hGeometry : Geometry blankFont 14 25 14 :=
    blankFont_geometry (by decide) (by decide) (by decide) (by decide)
  obtain ⟨hChunks, hWhole⟩ := draws_letters hGeometry (by decide) (by decide)
    (List.length_replicate : (List.replicate (14 * 25) (0xff408deb : UInt32)).length = _)
  exact (chunks_iff blankFont_mono hChunks hWhole).mpr ⟨by decide, .inr (by decide)⟩ _ rfl

/-- On a wide screen the second letter lands below the first instead of beside it. -/
theorem chunks_differ_wide : ∃ out out',
    (new 1280 720 1280 (List.replicate (1280 * 720) 0xff408deb)).drawChunks blankFont "a" "b" =
        .ok out ∧
      (new 1280 720 1280 (List.replicate (1280 * 720) 0xff408deb)).drawString blankFont
        ("a" ++ "b") = .ok out' ∧
      out.drawBuffer ≠ out'.drawBuffer := by
  have hGeometry : Geometry blankFont 1280 720 1280 :=
    blankFont_geometry (by decide) (by decide) (by decide) (by decide)
  obtain ⟨⟨out, hChunks⟩, out', hWhole⟩ := draws_letters hGeometry (by decide) (by decide)
    (List.length_replicate : (List.replicate (1280 * 720) (0xff408deb : UInt32)).length = _)
  exact ⟨out, out', hChunks, hWhole, chunks_differ blankFont_mono (by decide)
    (by decide : 2 ^ 24 ≤ (0xff408deb : UInt32).toNat) rfl (by decide) (by decide) hChunks hWhole⟩

end NotoFontDisplay

end RixOs
