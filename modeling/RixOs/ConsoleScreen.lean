import RixOs.Blending

/-! The screen after any series of calls on the console.  `console::init` fills the frame buffer and
draws the first string; from then on strings are drawn over what is there, and `clear` blanks the
pixels without moving the cursor.  An abstract screen keeps the background and the glyph pixels that
have landed since it was last blank.  It says what every word of the frame buffer is. -/

namespace RixOs

/-- A call on the console: a piece of a printed message, or `clear`. -/
inductive ConsoleCall
  | print (s : String)
  | clear
  deriving DecidableEq, Repr

namespace NotoFontDisplay

def clear (self : NotoFontDisplay) : NotoFontDisplay :=
  { self with drawBuffer := self.drawBuffer.map fun _ => 0 }

/-- The console that `console::init` puts in `CONSOLE`. -/
def init (font : Font) (width height stride : Nat) : Except Panic NotoFontDisplay :=
  if stride * height < 2 ^ 64 then
    (new width height stride (List.replicate (stride * height) 0xff408deb)).drawString font
      "Kernel Message"
  else .error .arithmeticOverflow

def call (font : Font) (self : NotoFontDisplay) : ConsoleCall → Except Panic NotoFontDisplay
  | .print s => self.writeStr font s
  | .clear => .ok self.clear

def calls (font : Font) (self : NotoFontDisplay) (cs : List ConsoleCall) :
    Except Panic NotoFontDisplay :=
  cs.foldlM (call font) self

end NotoFontDisplay

/-! ### The abstract screen -/

/-- The glyph pixels of a string that starts at the left edge of a row of pixels. -/
def textAt (font : Font) (stride row : Nat) (msg : String) : List (Nat × UInt8) :=
  NotoFontDisplay.pixels font ⟨0, 0, stride, [], 0, row⟩ msg

/-- A background, the row of the cursor, and the glyph pixels that have landed. -/
structure Screen where
  background : UInt32
  row : Nat
  landed : List (Nat × UInt8)

namespace Screen

variable (font : Font) (stride : Nat)

def draw (screen : Screen) (msg : String) : Screen where
  background := screen.background
  row := screen.row + msg.utf8ByteSize
  landed := screen.landed ++ textAt font stride screen.row msg

def clear (screen : Screen) : Screen := ⟨0, screen.row, []⟩

def call (screen : Screen) : ConsoleCall → Screen
  | .print s => screen.draw font stride s
  | .clear => screen.clear

/-- The screen after `calls`, from the one that `console::init` leaves. -/
def after (calls : List ConsoleCall) : Screen :=
  calls.foldl (call font stride) (draw font stride ⟨0xff408deb, 0, []⟩ "Kernel Message")

/-- A colour of the word at `i`: the background and all that landed there, up to 255. -/
def level (screen : Screen) (i : Nat) (c : Channel) : Nat :=
  min 255 (c.byte screen.background + NotoFontDisplay.landing i screen.landed)

/-- The word at `i`: the background where nothing landed, else the three colours. -/
def word (screen : Screen) (i : Nat) : UInt32 :=
  if ∃ p ∈ screen.landed, p.1 = i then
    .ofNat (screen.level i .red * 2 ^ 16 + screen.level i .green * 2 ^ 8 + screen.level i .blue)
  else screen.background

end Screen

/-- The strings that are printed, without the calls of `clear`. -/
def printed : List ConsoleCall → List String
  | [] => []
  | .print s :: calls => s :: printed calls
  | .clear :: calls => printed calls

/-! ### The display shows the screen -/

/-- A word without a top byte is given by its colours. -/
theorem toNat_of_bytes {word : UInt32} (hTop : word.toNat < 2 ^ 24) : word.toNat =
    Channel.red.byte word * 2 ^ 16 + Channel.green.byte word * 2 ^ 8 + Channel.blue.byte word := by
  simp only [Channel.byte]
  omega

namespace Screen

variable {screen : Screen} {i : Nat} {word : UInt32}

theorem level_lt (screen : Screen) (i : Nat) (c : Channel) : screen.level i c < 2 ^ 8 := by
  rw [level]
  omega

theorem toNat_word (h : ∃ p ∈ screen.landed, p.1 = i) : (screen.word i).toNat =
    screen.level i .red * 2 ^ 16 + screen.level i .green * 2 ^ 8 + screen.level i .blue := by
  have hRed := screen.level_lt i .red
  have hGreen := screen.level_lt i .green
  have hBlue := screen.level_lt i .blue
  rw [Screen.word, if_pos h, UInt32.toNat_ofNat']
  omega

theorem byte_word (h : ∃ p ∈ screen.landed, p.1 = i) (c : Channel) :
    c.byte (screen.word i) = screen.level i c := by
  have hRed := screen.level_lt i .red
  have hGreen := screen.level_lt i .green
  have hBlue := screen.level_lt i .blue
  cases c <;> simp only [Channel.byte, toNat_word h] <;> omega

theorem eq_word (h : ∃ p ∈ screen.landed, p.1 = i) (hTop : word.toNat < 2 ^ 24)
    (hBytes : ∀ c : Channel, c.byte word = screen.level i c) : word = screen.word i := by
  apply UInt32.toNat_inj.mp
  rw [toNat_of_bytes hTop, toNat_word h, hBytes, hBytes, hBytes]

theorem word_of_not (h : ¬∃ p ∈ screen.landed, p.1 = i) : screen.word i = screen.background :=
  if_neg h

end Screen

namespace NotoFontDisplay

theorem landing_append (i : Nat) (ps qs : List (Nat × UInt8)) :
    landing i (ps ++ qs) = landing i ps + landing i qs := by
  induction ps with
  | nil => rw [List.nil_append, landing, Nat.zero_add]
  | cons p ps ih => rw [List.cons_append, landing, landing, ih, Nat.add_assoc]

theorem landing_eq_zero {i : Nat} {ps : List (Nat × UInt8)} (h : ¬∃ p ∈ ps, p.1 = i) :
    landing i ps = 0 := by
  induction ps with
  | nil => rfl
  | cons p ps ih =>
    simp only [List.mem_cons, exists_eq_or_imp, not_or] at h
    rw [landing, if_neg h.1, ih h.2]

end NotoFontDisplay

open NotoFontDisplay

namespace Screen

variable {screen : Screen} {i : Nat} {font : Font} {stride : Nat} {msg : String}

@[simp] theorem word_clear (screen : Screen) (i : Nat) : screen.clear.word i = 0 := by
  simp [Screen.word, clear]

/-- More text adds to the word that is there. -/
theorem level_draw (screen : Screen) (i : Nat) (font : Font) (stride : Nat) (msg : String)
    (c : Channel) : (screen.draw font stride msg).level i c =
      min 255 (c.byte (screen.word i) + landing i (textAt font stride screen.row msg)) := by
  change min 255 (c.byte screen.background + landing i (screen.landed ++ _)) = _
  rw [landing_append]
  by_cases h : ∃ p ∈ screen.landed, p.1 = i
  · rw [byte_word h, level]
    omega
  · rw [word_of_not h, landing_eq_zero h, Nat.zero_add]

theorem word_draw_of_not (h : ¬∃ p ∈ textAt font stride screen.row msg, p.1 = i) :
    (screen.draw font stride msg).word i = screen.word i := by
  by_cases hLanded : ∃ p ∈ screen.landed, p.1 = i
  · have hDrawn : ∃ p ∈ (screen.draw font stride msg).landed, p.1 = i := by
      obtain ⟨p, hp, hi⟩ := hLanded
      exact ⟨p, List.mem_append_left _ hp, hi⟩
    refine (eq_word hDrawn ?_ fun c => ?_).symm
    · have hRed := screen.level_lt i .red
      have hGreen := screen.level_lt i .green
      have hBlue := screen.level_lt i .blue
      rw [toNat_word hLanded]
      omega
    · have hByte := byte_lt c (screen.word i)
      rw [level_draw, landing_eq_zero h]
      omega
  · rw [word_of_not hLanded, word_of_not]
    · rfl
    · rintro ⟨p, hp, hi⟩
      rcases List.mem_append.mp hp with hp | hp
      · exact hLanded ⟨p, hp, hi⟩
      · exact h ⟨p, hp, hi⟩

end Screen

variable {font : Font} {width height stride : Nat} {display out : NotoFontDisplay}
  {screen : Screen}

/-- Every word of the frame buffer is the one of the screen. -/
structure Shows (width height stride : Nat) (display : NotoFontDisplay) (screen : Screen) : Prop
    extends At width height stride screen.row display where
  words : ∀ i < stride * height, display.drawBuffer[i]? = some (screen.word i)

namespace Shows

/-- The pixels of a string depend on the cursor and the stride alone. -/
theorem pixels_eq (h : Shows width height stride display screen) (msg : String) :
    display.pixels font msg = textAt font stride screen.row msg := by
  apply pixels_congr h.stride_eq
  rw [h.cursorX_eq, h.cursorY_eq, h.stride_eq]

theorem draw (hGeometry : Geometry font width height stride)
    (h : Shows width height stride display screen) {msg : String}
    (hDraw : display.drawString font msg = .ok out) :
    Shows width height stride out (screen.draw font stride msg) := by
  refine ⟨h.toAt.drawString hGeometry hDraw, fun i hi => ?_⟩
  have hPixels := drawString_drawBuffer hDraw
  rw [h.pixels_eq] at hPixels
  by_cases hTouched : ∃ p ∈ textAt font stride screen.row msg, p.1 = i
  · obtain ⟨word, hWord, hBytes⟩ := drawPixels_byte hPixels (h.words i hi)
    obtain ⟨word', hWord', hTop⟩ := drawPixels_touched hPixels (.inl hTouched)
    obtain rfl := Option.some.inj (hWord.symm.trans hWord')
    rw [hWord]
    refine congrArg some (Screen.eq_word ?_ hTop fun c => ?_)
    · obtain ⟨p, hp, hi⟩ := hTouched
      exact ⟨p, List.mem_append_right _ hp, hi⟩
    · rw [hBytes c, Screen.level_draw]
  · have hNe : ∀ p ∈ textAt font stride screen.row msg, p.1 ≠ i :=
      fun p hp hi => hTouched ⟨p, hp, hi⟩
    rw [drawPixels_untouched hPixels hNe, h.words i hi, Screen.word_draw_of_not hTouched]

theorem clear (h : Shows width height stride display screen) :
    Shows width height stride display.clear screen.clear := by
  refine ⟨⟨h.width_eq, h.stride_eq, h.cursorX_eq, h.cursorY_eq, ?_⟩, fun i hi => ?_⟩
  · rw [NotoFontDisplay.clear, List.length_map, h.length_eq]
  · rw [NotoFontDisplay.clear, List.getElem?_map, h.words i hi, Screen.word_clear]
    rfl

/-- The whole frame buffer. -/
theorem drawBuffer_eq (h : Shows width height stride display screen) :
    display.drawBuffer = (List.range (stride * height)).map screen.word := by
  apply List.ext_getElem?
  intro i
  by_cases hi : i < stride * height
  · rw [h.words i hi, List.getElem?_map, List.getElem?_range hi]
    rfl
  · rw [List.getElem?_eq_none (by rw [h.length_eq]; omega),
      List.getElem?_eq_none (by rw [List.length_map, List.length_range]; omega)]

/-- A series of calls returns exactly when its strings fit, and shows the screen after it. -/
theorem calls (hGeometry : Geometry font width height stride) (cs : List ConsoleCall)
    (h : Shows width height stride display screen) (hRow : screen.row < 2 ^ 64) :
    match display.calls font cs with
    | .ok out => FitsFrom font height stride screen.row (printed cs) ∧
        Shows width height stride out (cs.foldl (Screen.call font stride) screen)
    | .error _ => ¬FitsFrom font height stride screen.row (printed cs) := by
  induction cs generalizing display screen with
  | nil =>
    refine ⟨⟨hRow, fun before msg after hMsgs => ?_⟩, h⟩
    simp [printed] at hMsgs
  | cons c cs ih =>
    cases c with
    | clear => exact ih h.clear hRow
    | print msg =>
      rw [printed, fitsFrom_cons, ← drawString_returns_iff hGeometry h.toAt]
      change (match (display.drawString font msg >>= fun next => next.calls font cs) with
        | .ok out => _
        | .error _ => _)
      cases hDraw : display.drawString font msg with
      | error panic =>
        rintro ⟨⟨out, hOut⟩, -⟩
        cases hOut
      | ok next =>
        have hBound := ((drawString_returns_iff hGeometry h.toAt).mp ⟨next, hDraw⟩).1
        have hNext := ih (h.draw hGeometry hDraw) hBound
        rw [Panic.bind_ok]
        cases hCalls : next.calls font cs with
        | error panic =>
          rw [hCalls] at hNext
          exact fun hFits => hNext hFits.2
        | ok out =>
          rw [hCalls] at hNext
          exact ⟨⟨⟨next, rfl⟩, hNext.1⟩, hNext.2⟩

end Shows

/-- After `console::init` and any series of calls the frame buffer is the one of the screen.  A
panic happens exactly where a string does not fit below the bytes of those before it. -/
theorem console_shows (hGeometry : Geometry font width height stride) (cs : List ConsoleCall) :
    match init font width height stride >>= fun console => console.calls font cs with
    | .ok out => Fits font height stride ("Kernel Message" :: printed cs) ∧
        out.drawBuffer = (List.range (stride * height)).map (Screen.after font stride cs).word
    | .error _ => ¬Fits font height stride ("Kernel Message" :: printed cs) := by
  have hNew : Shows width height stride
      (new width height stride (List.replicate (stride * height) 0xff408deb))
      ⟨0xff408deb, 0, []⟩ := by
    refine ⟨⟨rfl, rfl, rfl, rfl, List.length_replicate⟩, fun i hi => ?_⟩
    rw [Screen.word_of_not (by simp)]
    exact List.getElem?_replicate_of_lt hi
  have hAll := hNew.calls hGeometry (.print "Kernel Message" :: cs) (by decide)
  have hFits : FitsFrom font height stride 0 (printed (.print "Kernel Message" :: cs)) ↔
      Fits font height stride ("Kernel Message" :: printed cs) := by
    simp only [FitsFrom, Fits, Nat.zero_add, printed]
  simp only [hFits] at hAll
  rw [init, if_pos hGeometry.size_lt]
  change (match NotoFontDisplay.calls font _ (.print "Kernel Message" :: cs) with
    | .ok out => _
    | .error _ => _)
  cases hCalls : NotoFontDisplay.calls font
      (new width height stride (List.replicate (stride * height) 0xff408deb))
      (.print "Kernel Message" :: cs) with
  | error panic =>
    rw [hCalls] at hAll
    exact hAll
  | ok out =>
    rw [hCalls] at hAll
    exact ⟨hAll.1, hAll.2.drawBuffer_eq⟩

theorem columnFont_geometry : Geometry columnFont 1 20 1 := by
  refine ⟨fun c raster hRaster => ?_, by decide, by decide, by decide⟩
  obtain rfl := Option.some.inj hRaster
  decide

/-- On rows of one word, a letter after the first string, and one after the screen was cleared. -/
theorem console_shows_column : ∃ out,
    (init columnFont 1 20 1 >>= fun console =>
      console.calls columnFont [.print "a", .clear, .print "b"]) = .ok out ∧
      out.drawBuffer[14]? = some 0 ∧ out.drawBuffer[15]? = some 0x606060 := by
  obtain ⟨out, hOut⟩ : ∃ out, (init columnFont 1 20 1 >>= fun console =>
      console.calls columnFont [.print "a", .clear, .print "b"]) = .ok out := ⟨_, rfl⟩
  have hShows := console_shows columnFont_geometry [.print "a", .clear, .print "b"]
  rw [hOut] at hShows
  refine ⟨out, hOut, ?_, ?_⟩
  · rw [hShows.2]
    rfl
  · rw [hShows.2]
    rfl

end RixOs
