import Csos.Common.Raster
/-!
# The text console — the model

`console.c` with what it uses of `fb.c` and `font.c`. The console keeps the
characters of the screen in `s_text` and their pixels in the framebuffer, and
every call changes both. A framebuffer position is computed in `uint32_t`
(`State.pos`), and so are the ends of a rectangle that is copied (`clip`); other
columns, rows and lengths stay below the width and the height of the screen, so
that nothing else wraps. What `kmalloc` answers and the time are
arguments of the calls; `fb_console_panic_page`, which ends the console, is left
out.
-/

namespace Csos

namespace Gfx

/-- `FONT_W`. -/
abbrev fontW : ℕ := 8
/-- `FONT_H`. -/
abbrev fontH : ℕ := 16
/-- `CON_FG_RGB`. -/
abbrev conFgRgb : UInt32 := 0xE8E8E8
/-- `LOGO_SPLASH_BG_RGB`. -/
abbrev logoSplashBgRgb : UInt32 := 0x0F0F12
/-- `LOGO_SPLASH_TEXT_GAP`. -/
abbrev logoSplashTextGap : ℤ := 28
/-- `LOGO_WIDTH`. -/
abbrev logoWidth : ℕ := 400
/-- `LOGO_HEIGHT`. -/
abbrev logoHeight : ℕ := 400
/-- `CON_TAB_STOP`. -/
abbrev conTabStop : ℕ := 8
/-- `CON_MIN_ROWS`. -/
abbrev conMinRows : ℕ := 3
/-- `CON_MIN_COLS`. -/
abbrev conMinCols : ℕ := 20
/-- `CON_CURSOR_BLINK_MS`. -/
abbrev conCursorBlinkMs : ℕ := 500

/-! ## The font -/

/-- `s_font`: the glyphs of 0x20 to 0x7E, a byte for each row. -/
def sFont : List (List UInt8) := [
  [0x00, 0x00, 0x00, 0x00, 0x00, 0x00, 0x00, 0x00, 0x00, 0x00, 0x00, 0x00, 0x00, 0x00, 0x00, 0x00],
  [0x00, 0x00, 0x10, 0x10, 0x10, 0x10, 0x10, 0x10, 0x10, 0x00, 0x10, 0x10, 0x00, 0x00, 0x00, 0x00],
  [0x00, 0x24, 0x24, 0x24, 0x00, 0x00, 0x00, 0x00, 0x00, 0x00, 0x00, 0x00, 0x00, 0x00, 0x00, 0x00],
  [0x00, 0x00, 0x24, 0x24, 0x24, 0x7E, 0x24, 0x24, 0x7E, 0x24, 0x24, 0x24, 0x00, 0x00, 0x00, 0x00],
  [0x00, 0x10, 0x10, 0x7C, 0x92, 0x90, 0x90, 0x7C, 0x12, 0x12, 0x92, 0x7C, 0x10, 0x10, 0x00, 0x00],
  [0x00, 0x00, 0x64, 0x94, 0x68, 0x08, 0x10, 0x10, 0x20, 0x2C, 0x52, 0x4C, 0x00, 0x00, 0x00, 0x00],
  [0x00, 0x00, 0x18, 0x24, 0x24, 0x18, 0x30, 0x4A, 0x44, 0x44, 0x44, 0x3A, 0x00, 0x00, 0x00, 0x00],
  [0x00, 0x10, 0x10, 0x10, 0x00, 0x00, 0x00, 0x00, 0x00, 0x00, 0x00, 0x00, 0x00, 0x00, 0x00, 0x00],
  [0x00, 0x00, 0x08, 0x10, 0x20, 0x20, 0x20, 0x20, 0x20, 0x20, 0x10, 0x08, 0x00, 0x00, 0x00, 0x00],
  [0x00, 0x00, 0x20, 0x10, 0x08, 0x08, 0x08, 0x08, 0x08, 0x08, 0x10, 0x20, 0x00, 0x00, 0x00, 0x00],
  [0x00, 0x00, 0x00, 0x00, 0x00, 0x24, 0x18, 0x7E, 0x18, 0x24, 0x00, 0x00, 0x00, 0x00, 0x00, 0x00],
  [0x00, 0x00, 0x00, 0x00, 0x00, 0x10, 0x10, 0x7C, 0x10, 0x10, 0x00, 0x00, 0x00, 0x00, 0x00, 0x00],
  [0x00, 0x00, 0x00, 0x00, 0x00, 0x00, 0x00, 0x00, 0x00, 0x00, 0x10, 0x10, 0x20, 0x00, 0x00, 0x00],
  [0x00, 0x00, 0x00, 0x00, 0x00, 0x00, 0x00, 0x7E, 0x00, 0x00, 0x00, 0x00, 0x00, 0x00, 0x00, 0x00],
  [0x00, 0x00, 0x00, 0x00, 0x00, 0x00, 0x00, 0x00, 0x00, 0x00, 0x10, 0x10, 0x00, 0x00, 0x00, 0x00],
  [0x00, 0x00, 0x04, 0x04, 0x08, 0x08, 0x10, 0x10, 0x20, 0x20, 0x40, 0x40, 0x00, 0x00, 0x00, 0x00],
  [0x00, 0x00, 0x3C, 0x42, 0x42, 0x46, 0x4A, 0x52, 0x62, 0x42, 0x42, 0x3C, 0x00, 0x00, 0x00, 0x00],
  [0x00, 0x00, 0x08, 0x18, 0x28, 0x08, 0x08, 0x08, 0x08, 0x08, 0x08, 0x3E, 0x00, 0x00, 0x00, 0x00],
  [0x00, 0x00, 0x3C, 0x42, 0x42, 0x02, 0x04, 0x08, 0x10, 0x20, 0x40, 0x7E, 0x00, 0x00, 0x00, 0x00],
  [0x00, 0x00, 0x3C, 0x42, 0x42, 0x02, 0x1C, 0x02, 0x02, 0x42, 0x42, 0x3C, 0x00, 0x00, 0x00, 0x00],
  [0x00, 0x00, 0x02, 0x06, 0x0A, 0x12, 0x22, 0x42, 0x7E, 0x02, 0x02, 0x02, 0x00, 0x00, 0x00, 0x00],
  [0x00, 0x00, 0x7E, 0x40, 0x40, 0x40, 0x7C, 0x02, 0x02, 0x02, 0x42, 0x3C, 0x00, 0x00, 0x00, 0x00],
  [0x00, 0x00, 0x1C, 0x20, 0x40, 0x40, 0x7C, 0x42, 0x42, 0x42, 0x42, 0x3C, 0x00, 0x00, 0x00, 0x00],
  [0x00, 0x00, 0x7E, 0x02, 0x02, 0x04, 0x04, 0x08, 0x08, 0x10, 0x10, 0x10, 0x00, 0x00, 0x00, 0x00],
  [0x00, 0x00, 0x3C, 0x42, 0x42, 0x42, 0x3C, 0x42, 0x42, 0x42, 0x42, 0x3C, 0x00, 0x00, 0x00, 0x00],
  [0x00, 0x00, 0x3C, 0x42, 0x42, 0x42, 0x42, 0x3E, 0x02, 0x02, 0x04, 0x38, 0x00, 0x00, 0x00, 0x00],
  [0x00, 0x00, 0x00, 0x00, 0x00, 0x10, 0x10, 0x00, 0x00, 0x00, 0x10, 0x10, 0x00, 0x00, 0x00, 0x00],
  [0x00, 0x00, 0x00, 0x00, 0x00, 0x10, 0x10, 0x00, 0x00, 0x00, 0x10, 0x10, 0x20, 0x00, 0x00, 0x00],
  [0x00, 0x00, 0x00, 0x04, 0x08, 0x10, 0x20, 0x40, 0x20, 0x10, 0x08, 0x04, 0x00, 0x00, 0x00, 0x00],
  [0x00, 0x00, 0x00, 0x00, 0x00, 0x7E, 0x00, 0x00, 0x7E, 0x00, 0x00, 0x00, 0x00, 0x00, 0x00, 0x00],
  [0x00, 0x00, 0x00, 0x40, 0x20, 0x10, 0x08, 0x04, 0x08, 0x10, 0x20, 0x40, 0x00, 0x00, 0x00, 0x00],
  [0x00, 0x00, 0x3C, 0x42, 0x42, 0x42, 0x04, 0x08, 0x08, 0x00, 0x08, 0x08, 0x00, 0x00, 0x00, 0x00],
  [0x00, 0x00, 0x7C, 0x82, 0x9E, 0xA2, 0xA2, 0xA2, 0xA6, 0x9A, 0x80, 0x7E, 0x00, 0x00, 0x00, 0x00],
  [0x00, 0x00, 0x3C, 0x42, 0x42, 0x42, 0x42, 0x7E, 0x42, 0x42, 0x42, 0x42, 0x00, 0x00, 0x00, 0x00],
  [0x00, 0x00, 0x7C, 0x42, 0x42, 0x42, 0x7C, 0x42, 0x42, 0x42, 0x42, 0x7C, 0x00, 0x00, 0x00, 0x00],
  [0x00, 0x00, 0x3C, 0x42, 0x42, 0x40, 0x40, 0x40, 0x40, 0x42, 0x42, 0x3C, 0x00, 0x00, 0x00, 0x00],
  [0x00, 0x00, 0x78, 0x44, 0x42, 0x42, 0x42, 0x42, 0x42, 0x42, 0x44, 0x78, 0x00, 0x00, 0x00, 0x00],
  [0x00, 0x00, 0x7E, 0x40, 0x40, 0x40, 0x78, 0x40, 0x40, 0x40, 0x40, 0x7E, 0x00, 0x00, 0x00, 0x00],
  [0x00, 0x00, 0x7E, 0x40, 0x40, 0x40, 0x78, 0x40, 0x40, 0x40, 0x40, 0x40, 0x00, 0x00, 0x00, 0x00],
  [0x00, 0x00, 0x3C, 0x42, 0x42, 0x40, 0x40, 0x4E, 0x42, 0x42, 0x42, 0x3C, 0x00, 0x00, 0x00, 0x00],
  [0x00, 0x00, 0x42, 0x42, 0x42, 0x42, 0x7E, 0x42, 0x42, 0x42, 0x42, 0x42, 0x00, 0x00, 0x00, 0x00],
  [0x00, 0x00, 0x38, 0x10, 0x10, 0x10, 0x10, 0x10, 0x10, 0x10, 0x10, 0x38, 0x00, 0x00, 0x00, 0x00],
  [0x00, 0x00, 0x0E, 0x04, 0x04, 0x04, 0x04, 0x04, 0x04, 0x44, 0x44, 0x38, 0x00, 0x00, 0x00, 0x00],
  [0x00, 0x00, 0x42, 0x44, 0x48, 0x50, 0x60, 0x60, 0x50, 0x48, 0x44, 0x42, 0x00, 0x00, 0x00, 0x00],
  [0x00, 0x00, 0x40, 0x40, 0x40, 0x40, 0x40, 0x40, 0x40, 0x40, 0x40, 0x7E, 0x00, 0x00, 0x00, 0x00],
  [0x00, 0x00, 0x82, 0xC6, 0xAA, 0x92, 0x92, 0x82, 0x82, 0x82, 0x82, 0x82, 0x00, 0x00, 0x00, 0x00],
  [0x00, 0x00, 0x42, 0x42, 0x42, 0x62, 0x52, 0x4A, 0x46, 0x42, 0x42, 0x42, 0x00, 0x00, 0x00, 0x00],
  [0x00, 0x00, 0x3C, 0x42, 0x42, 0x42, 0x42, 0x42, 0x42, 0x42, 0x42, 0x3C, 0x00, 0x00, 0x00, 0x00],
  [0x00, 0x00, 0x7C, 0x42, 0x42, 0x42, 0x42, 0x7C, 0x40, 0x40, 0x40, 0x40, 0x00, 0x00, 0x00, 0x00],
  [0x00, 0x00, 0x3C, 0x42, 0x42, 0x42, 0x42, 0x42, 0x42, 0x42, 0x4A, 0x3C, 0x02, 0x00, 0x00, 0x00],
  [0x00, 0x00, 0x7C, 0x42, 0x42, 0x42, 0x42, 0x7C, 0x50, 0x48, 0x44, 0x42, 0x00, 0x00, 0x00, 0x00],
  [0x00, 0x00, 0x3C, 0x42, 0x40, 0x40, 0x3C, 0x02, 0x02, 0x42, 0x42, 0x3C, 0x00, 0x00, 0x00, 0x00],
  [0x00, 0x00, 0xFE, 0x10, 0x10, 0x10, 0x10, 0x10, 0x10, 0x10, 0x10, 0x10, 0x00, 0x00, 0x00, 0x00],
  [0x00, 0x00, 0x42, 0x42, 0x42, 0x42, 0x42, 0x42, 0x42, 0x42, 0x42, 0x3C, 0x00, 0x00, 0x00, 0x00],
  [0x00, 0x00, 0x42, 0x42, 0x42, 0x42, 0x42, 0x24, 0x24, 0x24, 0x18, 0x18, 0x00, 0x00, 0x00, 0x00],
  [0x00, 0x00, 0x82, 0x82, 0x82, 0x82, 0x82, 0x92, 0x92, 0xAA, 0xC6, 0x82, 0x00, 0x00, 0x00, 0x00],
  [0x00, 0x00, 0x42, 0x42, 0x24, 0x24, 0x18, 0x18, 0x24, 0x24, 0x42, 0x42, 0x00, 0x00, 0x00, 0x00],
  [0x00, 0x00, 0x82, 0x82, 0x44, 0x44, 0x28, 0x10, 0x10, 0x10, 0x10, 0x10, 0x00, 0x00, 0x00, 0x00],
  [0x00, 0x00, 0x7E, 0x02, 0x02, 0x04, 0x08, 0x10, 0x20, 0x40, 0x40, 0x7E, 0x00, 0x00, 0x00, 0x00],
  [0x00, 0x00, 0x38, 0x20, 0x20, 0x20, 0x20, 0x20, 0x20, 0x20, 0x20, 0x38, 0x00, 0x00, 0x00, 0x00],
  [0x00, 0x00, 0x40, 0x40, 0x20, 0x20, 0x10, 0x10, 0x08, 0x08, 0x04, 0x04, 0x00, 0x00, 0x00, 0x00],
  [0x00, 0x00, 0x38, 0x08, 0x08, 0x08, 0x08, 0x08, 0x08, 0x08, 0x08, 0x38, 0x00, 0x00, 0x00, 0x00],
  [0x00, 0x10, 0x28, 0x44, 0x00, 0x00, 0x00, 0x00, 0x00, 0x00, 0x00, 0x00, 0x00, 0x00, 0x00, 0x00],
  [0x00, 0x00, 0x00, 0x00, 0x00, 0x00, 0x00, 0x00, 0x00, 0x00, 0x00, 0x00, 0x00, 0x7E, 0x00, 0x00],
  [0x10, 0x08, 0x00, 0x00, 0x00, 0x00, 0x00, 0x00, 0x00, 0x00, 0x00, 0x00, 0x00, 0x00, 0x00, 0x00],
  [0x00, 0x00, 0x00, 0x00, 0x00, 0x3C, 0x02, 0x3E, 0x42, 0x42, 0x42, 0x3E, 0x00, 0x00, 0x00, 0x00],
  [0x00, 0x00, 0x40, 0x40, 0x40, 0x7C, 0x42, 0x42, 0x42, 0x42, 0x42, 0x7C, 0x00, 0x00, 0x00, 0x00],
  [0x00, 0x00, 0x00, 0x00, 0x00, 0x3C, 0x42, 0x40, 0x40, 0x40, 0x42, 0x3C, 0x00, 0x00, 0x00, 0x00],
  [0x00, 0x00, 0x02, 0x02, 0x02, 0x3E, 0x42, 0x42, 0x42, 0x42, 0x42, 0x3E, 0x00, 0x00, 0x00, 0x00],
  [0x00, 0x00, 0x00, 0x00, 0x00, 0x3C, 0x42, 0x42, 0x7E, 0x40, 0x40, 0x3C, 0x00, 0x00, 0x00, 0x00],
  [0x00, 0x00, 0x0E, 0x10, 0x10, 0x7C, 0x10, 0x10, 0x10, 0x10, 0x10, 0x10, 0x00, 0x00, 0x00, 0x00],
  [0x00, 0x00, 0x00, 0x00, 0x00, 0x3E, 0x42, 0x42, 0x42, 0x42, 0x42, 0x3E, 0x02, 0x02, 0x3C, 0x00],
  [0x00, 0x00, 0x40, 0x40, 0x40, 0x7C, 0x42, 0x42, 0x42, 0x42, 0x42, 0x42, 0x00, 0x00, 0x00, 0x00],
  [0x00, 0x00, 0x10, 0x10, 0x00, 0x30, 0x10, 0x10, 0x10, 0x10, 0x10, 0x38, 0x00, 0x00, 0x00, 0x00],
  [0x00, 0x00, 0x04, 0x04, 0x00, 0x0C, 0x04, 0x04, 0x04, 0x04, 0x04, 0x04, 0x44, 0x44, 0x38, 0x00],
  [0x00, 0x00, 0x40, 0x40, 0x40, 0x42, 0x44, 0x48, 0x70, 0x48, 0x44, 0x42, 0x00, 0x00, 0x00, 0x00],
  [0x00, 0x00, 0x30, 0x10, 0x10, 0x10, 0x10, 0x10, 0x10, 0x10, 0x10, 0x38, 0x00, 0x00, 0x00, 0x00],
  [0x00, 0x00, 0x00, 0x00, 0x00, 0xFC, 0x92, 0x92, 0x92, 0x92, 0x92, 0x92, 0x00, 0x00, 0x00, 0x00],
  [0x00, 0x00, 0x00, 0x00, 0x00, 0x7C, 0x42, 0x42, 0x42, 0x42, 0x42, 0x42, 0x00, 0x00, 0x00, 0x00],
  [0x00, 0x00, 0x00, 0x00, 0x00, 0x3C, 0x42, 0x42, 0x42, 0x42, 0x42, 0x3C, 0x00, 0x00, 0x00, 0x00],
  [0x00, 0x00, 0x00, 0x00, 0x00, 0x7C, 0x42, 0x42, 0x42, 0x42, 0x42, 0x7C, 0x40, 0x40, 0x40, 0x00],
  [0x00, 0x00, 0x00, 0x00, 0x00, 0x3E, 0x42, 0x42, 0x42, 0x42, 0x42, 0x3E, 0x02, 0x02, 0x02, 0x00],
  [0x00, 0x00, 0x00, 0x00, 0x00, 0x5E, 0x60, 0x40, 0x40, 0x40, 0x40, 0x40, 0x00, 0x00, 0x00, 0x00],
  [0x00, 0x00, 0x00, 0x00, 0x00, 0x3E, 0x40, 0x40, 0x3C, 0x02, 0x02, 0x7C, 0x00, 0x00, 0x00, 0x00],
  [0x00, 0x00, 0x10, 0x10, 0x10, 0x7C, 0x10, 0x10, 0x10, 0x10, 0x10, 0x0E, 0x00, 0x00, 0x00, 0x00],
  [0x00, 0x00, 0x00, 0x00, 0x00, 0x42, 0x42, 0x42, 0x42, 0x42, 0x42, 0x3E, 0x00, 0x00, 0x00, 0x00],
  [0x00, 0x00, 0x00, 0x00, 0x00, 0x42, 0x42, 0x42, 0x24, 0x24, 0x18, 0x18, 0x00, 0x00, 0x00, 0x00],
  [0x00, 0x00, 0x00, 0x00, 0x00, 0x82, 0x82, 0x92, 0x92, 0x92, 0x92, 0x7C, 0x00, 0x00, 0x00, 0x00],
  [0x00, 0x00, 0x00, 0x00, 0x00, 0x42, 0x42, 0x24, 0x18, 0x24, 0x42, 0x42, 0x00, 0x00, 0x00, 0x00],
  [0x00, 0x00, 0x00, 0x00, 0x00, 0x42, 0x42, 0x42, 0x42, 0x42, 0x42, 0x3E, 0x02, 0x02, 0x3C, 0x00],
  [0x00, 0x00, 0x00, 0x00, 0x00, 0x7E, 0x04, 0x08, 0x10, 0x20, 0x40, 0x7E, 0x00, 0x00, 0x00, 0x00],
  [0x00, 0x00, 0x0C, 0x10, 0x10, 0x10, 0x20, 0x10, 0x10, 0x10, 0x10, 0x0C, 0x00, 0x00, 0x00, 0x00],
  [0x00, 0x00, 0x10, 0x10, 0x10, 0x10, 0x10, 0x10, 0x10, 0x10, 0x10, 0x10, 0x00, 0x00, 0x00, 0x00],
  [0x00, 0x00, 0x30, 0x08, 0x08, 0x08, 0x04, 0x08, 0x08, 0x08, 0x08, 0x30, 0x00, 0x00, 0x00, 0x00],
  [0x00, 0x62, 0x92, 0x8C, 0x00, 0x00, 0x00, 0x00, 0x00, 0x00, 0x00, 0x00, 0x00, 0x00, 0x00, 0x00]]

/-- `fb_font_glyph(c)[r]`. -/
def fbFontGlyph (c : UInt8) (r : ℕ) : UInt8 :=
  let u := if c < 0x20 ∨ 0x7E < c then 0x3F else c
  (sFont.getD (u - 0x20).toNat []).getD r 0

/-- `bits & (0x80u >> c)`. -/
def bitAt (bits : UInt8) (c : ℕ) : Bool := bits.toNat.testBit (7 - c)

/-! ## Pixels -/

/-- `fb_pack_pixel`. -/
def fbPackPixel (xrgb : UInt32) (format : ℕ) : UInt32 :=
  let r := (xrgb >>> 16) &&& 0xff
  let g := (xrgb >>> 8) &&& 0xff
  let b := xrgb &&& 0xff
  if format = 1 then (r <<< 16) ||| (g <<< 8) ||| b else (b <<< 16) ||| (g <<< 8) ||| r

/-- The framebuffer. -/
abbrev Fb := Surface UInt32

/-- The pixel at a position is at an address that is a multiple of 8. -/
def aligned (base i : ℕ) : Bool := (base + 4 * i) % 8 = 0

/-- `while (n--) *dst++ = *src++`. -/
def copyUp : ℕ → ℕ → ℕ → Fb → Fb
  | 0, _, _, f => f
  | n + 1, d, s, f => copyUp n (d + 1) (s + 1) (f.put d (f.pixel s))

/-- The loop over 64-bit words, upwards, and what is left. -/
def moveUp (base : ℕ) : ℕ → ℕ → ℕ → Fb → Fb
  | n + 2, d, s, f =>
    if aligned base d = true ∧ aligned base s = true then
      moveUp base n (d + 2) (s + 2) ((f.put d (f.pixel s)).put (d + 1) (f.pixel (s + 1)))
    else copyUp (n + 2) d s f
  | n, d, s, f => copyUp n d s f

/-- `while (n--) *--dst = *--src`. -/
def copyDown : ℕ → ℕ → ℕ → Fb → Fb
  | 0, _, _, f => f
  | n + 1, d, s, f => copyDown n (d - 1) (s - 1) (f.put (d - 1) (f.pixel (s - 1)))

/-- The loop over 64-bit words, downwards, and what is left. -/
def moveDown (base : ℕ) : ℕ → ℕ → ℕ → Fb → Fb
  | n + 2, d, s, f =>
    if aligned base d = true ∧ aligned base s = true then
      moveDown base n (d - 2) (s - 2)
        ((f.put (d - 2) (f.pixel (s - 2))).put (d - 1) (f.pixel (s - 1)))
    else copyDown (n + 2) d s f
  | n, d, s, f => copyDown n d s f

/-- `fb_memmove_pixels`. -/
def fbMemmovePixels (base dst src n : ℕ) (f : Fb) : Fb :=
  if n = 0 ∨ dst = src then f
  else if dst < src then moveUp base n dst src f
  else moveDown base n (dst + n) (src + n) f

/-- `while (n--) *row++ = pixel`. -/
def fillUp (pixel : UInt32) : ℕ → ℕ → Fb → Fb
  | 0, _, f => f
  | n + 1, d, f => fillUp pixel n (d + 1) (f.put d pixel)

/-- A row of `fb_fillrect_locked`: the loop over 64-bit words, and what is
left. -/
def fillRow (base : ℕ) (pixel : UInt32) : ℕ → ℕ → Fb → Fb
  | n + 2, d, f =>
    if aligned base d = true then fillRow base pixel n (d + 2) ((f.put d pixel).put (d + 1) pixel)
    else fillUp pixel (n + 2) d f
  | n, d, f => fillUp pixel n d f

/-! ## The console -/

/-- The static variables of `console.c`. -/
structure State where
  fb : Fb
  base : ℕ
  stride : ℕ
  width : ℕ
  height : ℕ
  fg : UInt32
  bg : UInt32
  cols : ℕ
  rows : ℕ
  top : ℕ
  cx : ℕ
  cy : ℕ
  ready : Bool
  text : Option (ℕ → UInt8)
  capCols : ℕ
  capRows : ℕ
  cursorPhase : Bool
  cursorNextMs : ℕ
  cursorEnabled : Bool

/-- `y * s_stride + x`, a `uint32_t`. -/
def State.pos (s : State) (x y : ℕ) : ℕ := (y * s.stride + x) % 2 ^ 32

/-- `if (x + n > limit) n = (x < limit) ? limit - x : 0`, in `uint32_t`. -/
def clip (limit x n : ℕ) : ℕ :=
  if limit < (x + n) % 2 ^ 32 then (if x < limit then limit - x else 0) else n

/-- `fb_copyarea_locked`. -/
def fbCopyareaLocked (s : State) (sx sy w h dx dy : ℕ) : State :=
  if w = 0 ∨ h = 0 ∨ s.base = 0 then s
  else
    let w := clip s.width dx (clip s.width sx w)
    let h := clip s.height dy (clip s.height sy h)
    if w = 0 ∨ h = 0 then s
    else
      let row := fun i f => fbMemmovePixels s.base (s.pos dx (dy + i)) (s.pos sx (sy + i)) w f
      { s with fb := if dy ≤ sy then upto h row s.fb else downto h row s.fb }

/-- `fb_fillrect_locked`. -/
def fbFillrectLocked (s : State) (x y w h : ℕ) (pixel : UInt32) : State :=
  if w = 0 ∨ h = 0 ∨ s.base = 0 then s
  else if s.width ≤ x ∨ s.height ≤ y then s
  else
    let w := if s.width < x + w then s.width - x else w
    let h := if s.height < y + h then s.height - y else h
    { s with fb := upto h (fun i f => fillRow s.base pixel w (s.pos x (y + i)) f) s.fb }

/-- `con_text_clear_locked`. -/
def conTextClearLocked (s : State) (ch : UInt8) : State :=
  { s with text := s.text.map fun t i => if i < s.capCols * s.capRows then ch else t i }

/-- `con_text_alloc_locked`; `mem` is what `kmalloc` gives. -/
def conTextAllocLocked (s : State) (cols rows : ℕ) (mem : Option (ℕ → UInt8)) : State :=
  if cols = 0 ∨ rows = 0 then s
  else if s.text.isSome ∧ cols = s.capCols ∧ rows = s.capRows then conTextClearLocked s 0x20
  else
    let s := { s with
      text := none
      capCols := 0
      capRows := 0 }
    if 1024 * 1024 < cols * rows then s
    else match mem with
      | none => s
      | some p => conTextClearLocked { s with
          text := some p
          capCols := cols
          capRows := rows } 0x20

/-- `s_text[i] = ch` if there is a grid. -/
def State.setText (s : State) (i : ℕ) (ch : UInt8) : State :=
  { s with text := s.text.map fun t => Function.update t i ch }

/-- `con_text_scroll_locked`. -/
def conTextScrollLocked (s : State) : State :=
  match s.text with
  | none => s
  | some t =>
    let t := upto (s.rows - 1) (fun r t => upto s.cols (fun c t =>
      Function.update t (r * s.capCols + c) (t ((r + 1) * s.capCols + c))) t) t
    let t := upto s.cols (fun c t => Function.update t ((s.rows - 1) * s.capCols + c) 0x20) t
    { s with text := some t }

/-- `con_fill`. -/
def conFill (s : State) (y0 y1 : ℕ) (pixel : UInt32) : State :=
  if s.height ≤ y0 then s
  else
    let y1 := if s.height < y1 then s.height else y1
    if y1 ≤ y0 then s else fbFillrectLocked s 0 y0 s.width (y1 - y0) pixel

/-- `con_scroll_locked`. -/
def conScrollLocked (s : State) : State :=
  if s.rows = 0 then s
  else
    let s := conTextScrollLocked s
    let h := (s.rows - 1) * fontH
    let s := if 0 < h then fbCopyareaLocked s 0 (s.top + fontH) s.width h 0 s.top else s
    fbFillrectLocked s 0 (s.top + (s.rows - 1) * fontH) s.width fontH s.bg

/-- `con_newline_locked`. The loop is over after the first time, as then
`s_cy = s_rows - 1`. -/
def conNewlineLocked (s : State) : State :=
  let s := { s with
    cx := 0
    cy := s.cy + 1 }
  if s.rows ≤ s.cy then
    let s := conScrollLocked s
    { s with cy := s.rows - 1 }
  else s

/-- `con_draw_locked` of the glyph of `ch`, and `con_draw_inverted_locked` with
the colours exchanged. -/
def conDraw (s : State) (px py : ℕ) (ch : UInt8) (on off : UInt32) : State :=
  { s with fb := upto fontH (fun r f => upto fontW (fun c f =>
      f.put (s.pos (px + c) (py + r)) (if bitAt (fbFontGlyph ch r) c then on else off)) f) s.fb }

/-- `con_draw_locked`. -/
def conDrawLocked (s : State) (px py : ℕ) (ch : UInt8) : State := conDraw s px py ch s.fg s.bg

/-- `con_draw_inverted_locked`. -/
def conDrawInvertedLocked (s : State) (px py : ℕ) (ch : UInt8) : State := conDraw s px py ch s.bg s.fg

/-- `con_cell_char_locked`. -/
def conCellCharLocked (s : State) (col row : ℕ) : UInt8 :=
  match s.text with
  | none => 0x20
  | some t =>
    if row < s.rows ∧ col < s.cols ∧ row < s.capRows ∧ col < s.capCols then t (row * s.capCols + col)
    else 0x20

/-- `con_cursor_paint_locked`. -/
def conCursorPaintLocked (s : State) (shown : Bool) : State :=
  if s.ready = false ∨ s.cursorEnabled = false ∨ s.base = 0 then s
  else if s.cols ≤ s.cx ∨ s.rows ≤ s.cy then s
  else
    let px := s.cx * fontW
    let py := s.top + s.cy * fontH
    if s.width < px + fontW ∨ s.height < py + fontH then s
    else
      let ch := conCellCharLocked s s.cx s.cy
      if shown then conDrawInvertedLocked s px py ch else conDrawLocked s px py ch

/-- `con_cursor_hide_locked`. -/
def conCursorHideLocked (s : State) : State :=
  if s.cursorPhase then { conCursorPaintLocked s false with cursorPhase := false } else s

/-- `con_cursor_restart_locked` at the time `now`. -/
def conCursorRestartLocked (s : State) (now : ℕ) : State :=
  { conCursorPaintLocked (conCursorHideLocked s) true with
    cursorPhase := true
    cursorNextMs := (now + conCursorBlinkMs) % 2 ^ 64 }

/-- The end of `con_putchar_locked`, for a character that is shown. -/
def conPutGlyph (s : State) (ch : UInt8) : State :=
  let s := if s.cy < s.rows ∧ s.cx < s.cols then s.setText (s.cy * s.capCols + s.cx) ch else s
  let s := conDrawLocked s (s.cx * fontW) (s.top + s.cy * fontH) ch
  let s := { s with cx := s.cx + 1 }
  if s.cols ≤ s.cx then conNewlineLocked s else s

/-- The loop of `con_putchar_locked` for a tab. -/
def tabLoop : ℕ → State → State
  | 0, s => s
  | fuel + 1, s =>
    let s := conPutGlyph s 0x20
    if s.cx % conTabStop ≠ 0 ∧ s.cx < s.cols then tabLoop fuel s else s

/-- `con_putchar_locked`. -/
def conPutcharLocked (s : State) (ch : UInt8) : State :=
  if ch = 0x0A then conNewlineLocked s
  else if ch = 0x0D then { s with cx := 0 }
  else if ch = 0x08 then
    if 0 < s.cx then
      let s := { s with cx := s.cx - 1 }
      let s := if s.cy < s.rows ∧ s.cx < s.cols then s.setText (s.cy * s.capCols + s.cx) 0x20 else s
      conDrawLocked s (s.cx * fontW) (s.top + s.cy * fontH) 0x20
    else s
  else if ch = 0x09 then tabLoop conTabStop s
  else conPutGlyph s ch

/-! ## Calls -/

/-- `fb_console_write` at the time `now`; `buf` is what the buffer holds. -/
def fbConsoleWrite (s : State) (buf : List UInt8) (now : ℕ) : State :=
  if buf = [] then s
  else if s.ready = false then s
  else conCursorRestartLocked (buf.foldl conPutcharLocked (conCursorHideLocked s)) now

/-- `fb_console_puts`; `str` is what is there up to a NUL and after it. -/
def fbConsolePuts (s : State) (str : List UInt8) (now : ℕ) : State :=
  if s.ready = false then s
  else conCursorRestartLocked
    ((str.takeWhile (· ≠ 0)).foldl conPutcharLocked (conCursorHideLocked s)) now

/-- `fb_console_tick`; `(int64_t)(now - s_cursor_next_ms) >= 0` is a test of the
top bit. -/
def fbConsoleTick (s : State) (now : ℕ) : State :=
  if s.ready = false then s
  else if s.cursorEnabled = false then s
  else if (now + (2 ^ 64 - s.cursorNextMs)) % 2 ^ 64 < 2 ^ 63 then
    let s := { s with cursorPhase := !s.cursorPhase }
    { conCursorPaintLocked s s.cursorPhase with
      cursorNextMs := (now + conCursorBlinkMs) % 2 ^ 64 }
  else s

/-- `con_reset_full_locked`. -/
def conResetFullLocked (s : State) (bg : UInt32) (mem : Option (ℕ → UInt8)) : State :=
  let s := { s with cursorPhase := false }
  let s := conFill s 0 s.height bg
  let s := { s with
    top := 0
    cols := s.width / fontW
    rows := s.height / fontH
    cx := 0
    cy := 0
    bg := bg }
  conTextAllocLocked s s.cols s.rows mem

/-- `fb_console_clear_full`. -/
def fbConsoleClearFull (s : State) (mem : Option (ℕ → UInt8)) (now : ℕ) : State :=
  if s.ready = false then s
  else conCursorRestartLocked (conResetFullLocked s s.bg mem) now

/-! ## The start -/

/-- What `fb_console_init_boot` reads of `boot_info_t`. -/
structure Boot where
  base : ℕ
  width : ℕ
  height : ℕ
  stride : ℕ
  format : ℕ

/-- `(int32_t)x`. -/
def toInt32 (x : ℕ) : ℤ := if x < 2 ^ 31 then x else x - 2 ^ 32

/-- `(uint32_t)x`. -/
def toUint32 (x : ℤ) : ℕ := (x % 2 ^ 32).toNat

/-- `fb_fill`. -/
def fbFill (boot : Boot) (rgb : UInt32) (f : Fb) : Fb :=
  if boot.base = 0 ∨ boot.width = 0 ∨ boot.height = 0 then f
  else upto (boot.stride * boot.height % 2 ^ 32) (fun i f => f.put i (fbPackPixel rgb boot.format)) f

/-- `fb_draw_image_at`. -/
def fbDrawImageAt (boot : Boot) (pixels : ℕ → UInt32) (imgW imgH : ℕ) (x0 y0 : ℤ) (f : Fb) : Fb :=
  if boot.base = 0 then f
  else upto imgH (fun y f =>
    let dy := y0 + toInt32 y
    if dy < 0 ∨ boot.height ≤ toUint32 dy then f
    else upto imgW (fun x f =>
      let dx := x0 + toInt32 x
      if dx < 0 ∨ boot.width ≤ toUint32 dx then f
      else
        let src := pixels (y * imgW + x)
        if src = 0 then f
        else f.put ((toUint32 dy * boot.stride + toUint32 dx) % 2 ^ 32)
          (fbPackPixel src boot.format)) f) f

/-- `fb_draw_image_centered`. -/
def fbDrawImageCentered (boot : Boot) (pixels : ℕ → UInt32) (imgW imgH : ℕ) (f : Fb) : Fb :=
  if boot.base = 0 ∨ boot.width = 0 ∨ boot.height = 0 then f
  else fbDrawImageAt boot pixels imgW imgH ((toInt32 boot.width - toInt32 imgW).tdiv 2)
    ((toInt32 boot.height - toInt32 imgH).tdiv 2) f

/-- `fb_draw_logo_splash`. -/
def fbDrawLogoSplash (boot : Boot) (pixels : ℕ → UInt32) (imgW imgH : ℕ) (f : Fb) : Fb :=
  if boot.base = 0 then f
  else fbDrawImageCentered boot pixels imgW imgH (fbFill boot logoSplashBgRgb f)

/-- The choice of the text area in `fb_console_init_boot`, and what is drawn
around it; `logo` is `LOGO_pixels`. -/
def layout (s : State) (boot : Boot) (logo : ℕ → UInt32) : State :=
  if logoWidth ≤ s.width ∧ logoHeight ≤ s.height ∧ conMinCols ≤ s.cols then
    let cy := (toInt32 s.height - toInt32 logoHeight).tdiv 2
    let textTop := toUint32 (cy + toInt32 logoHeight + logoSplashTextGap)
    let rowsBelow := if textTop < s.height then (s.height - textTop) / fontH else 0
    if conMinRows ≤ rowsBelow then
      { s with
        fb := fbDrawLogoSplash boot logo logoWidth logoHeight s.fb
        top := textTop
        rows := rowsBelow }
    else conFill s 0 s.height s.bg
  else conFill s 0 s.height s.bg

/-- `fb_console_init_boot`. -/
def fbConsoleInitBoot (s : State) (boot : Boot) (logo : ℕ → UInt32) (mem : Option (ℕ → UInt8))
    (now : ℕ) : State :=
  if boot.base = 0 ∨ boot.width = 0 ∨ boot.height = 0 then s
  else
    let s := { s with
      base := boot.base
      stride := boot.stride
      width := boot.width
      height := boot.height
      fg := fbPackPixel conFgRgb boot.format
      bg := fbPackPixel logoSplashBgRgb boot.format
      cx := 0
      cy := 0
      ready := false
      top := 0
      cols := boot.width / fontW
      rows := boot.height / fontH }
    if s.cols = 0 ∨ s.rows = 0 then s
    else
      let s := layout s boot logo
      let s := conTextAllocLocked s s.cols s.rows mem
      let s := conFill s s.top s.height s.bg
      conCursorRestartLocked { s with
        ready := true
        cursorEnabled := true
        cursorPhase := false } now

/-! ## Runs -/

/-- The static variables before the start, and what is on the screen. -/
def unset (pixel : ℕ → UInt32) : State where
  fb := ⟨pixel, fun _ => false⟩
  base := 0
  stride := 0
  width := 0
  height := 0
  fg := 0
  bg := 0
  cols := 0
  rows := 0
  top := 0
  cx := 0
  cy := 0
  ready := false
  text := none
  capCols := 0
  capRows := 0
  cursorPhase := false
  cursorNextMs := 0
  cursorEnabled := false

/-- The pixels that are written are counted from here. -/
def State.fresh (s : State) : State := { s with fb := { s.fb with written := fun _ => false } }

/-- A call. -/
inductive Call
  | write (buf : List UInt8) (now : ℕ)
  | puts (str : List UInt8) (now : ℕ)
  | tick (now : ℕ)
  | clearFull (mem : Option (ℕ → UInt8)) (now : ℕ)

/-- What a call does. -/
def call (s : State) : Call → State
  | .write buf now => fbConsoleWrite s buf now
  | .puts str now => fbConsolePuts s str now
  | .tick now => fbConsoleTick s now
  | .clearFull mem now => fbConsoleClearFull s mem now

/-- **A run of calls** after the start on a screen, in which the character grid
is allocated each time. The start itself also clears what is right of the
screen, and is not counted. -/
inductive Run (boot : Boot) : State → Prop
  | init (pixel logo : ℕ → UInt32) (mem : Option (ℕ → UInt8)) (now : ℕ)
      (h : (fbConsoleInitBoot (unset pixel) boot logo mem now).text.isSome) :
      Run boot (fbConsoleInitBoot (unset pixel) boot logo mem now).fresh
  | step {s : State} {c : Call} (h : Run boot s) (hc : (call s c).text.isSome) : Run boot (call s c)

end Gfx

end Csos
