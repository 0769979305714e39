import Csos.Common.Scan
import Csos.Vfs.Model
/-!
# Boot configuration — the model

`config.c` up to the application of what it has read. Pointers into the text
are offsets, and every byte of the text is read through a check. The fields of
`g_boot_config` are buffers: a rejected `mount` line leaves what it has written
in the slot behind.
-/

namespace Csos

namespace Config

open Vfs Checked Buf

/-- `BOOT_CONFIG_MAX_MOUNTS`. -/
abbrev maxMounts : ℕ := 6
/-- `CFG_MAX_SIZE`. -/
abbrev cfgMaxSize : ℕ := 16384
/-- `CFG_IDENTITY_LIMIT`. -/
abbrev cfgIdentityLimit : ℕ := 512 * 1024 * 1024
/-- `CSOS_BOOT_INFO_MAGIC`. -/
abbrev bootInfoMagic : ℕ := 0xC505B007

/-- `'\n'`. -/
abbrev newline : UInt8 := 10
/-- `'\r'`. -/
abbrev carriageReturn : UInt8 := 13
/-- `'#'`. -/
abbrev hash : UInt8 := 35
/-- `'='`. -/
abbrev equals : UInt8 := 61

/-- `"mount"`. -/
abbrev mountWord : Str := [109, 111, 117, 110, 116]
/-- `"pmm"`. -/
abbrev pmmKey : Str := [112, 109, 109]
/-- `"disk"`. -/
abbrev diskKey : Str := [100, 105, 115, 107]
/-- `"root"`. -/
abbrev rootKey : Str := [114, 111, 111, 116]
/-- `"init"`. -/
abbrev initKey : Str := [105, 110, 105, 116]
/-- `"debug"`. -/
abbrev debugKey : Str := [100, 101, 98, 117, 103]
/-- `"timeout"`. -/
abbrev timeoutKey : Str := [116, 105, 109, 101, 111, 117, 116]

/-! ## `g_boot_config` -/

/-- `config_mount_t`. -/
structure Slot where
  dev : Buf
  mountpoint : Buf
  fstype : Buf

/-- `boot_config_t`. -/
structure BootConfig where
  present : Bool
  pmm : Buf
  disk : Buf
  root : Buf
  mounts : ℕ → Slot
  mountCount : ℕ
  init : Buf
  debug : Buf
  timeout : ℕ

/-- A field of `size` bytes that holds `s`, and zeros after it. -/
def field (size : ℕ) (s : Str) : Buf := ⟨fun i => s.getD i 0, size⟩

/-- `cfg_set_defaults`. -/
def defaults : BootConfig where
  present := false
  pmm := field 16 [98, 105, 116, 109, 97, 112]
  disk := field 16 [97, 116, 97, 45, 112, 105, 111]
  root := field 32 []
  mounts := fun _ => ⟨field 32 [], field 64 [], field 16 []⟩
  mountCount := 0
  init := field 256 [47, 115, 98, 105, 110, 47, 105, 110, 105, 116]
  debug := field 16 [115, 101, 114, 105, 97, 108]
  timeout := 3

/-- The slot `g_boot_config.mounts[g_boot_config.mount_count]`. -/
def BootConfig.slot (g : BootConfig) : Slot := g.mounts g.mountCount

/-- A store to that slot. -/
def BootConfig.setSlot (g : BootConfig) (m : Slot) : BootConfig :=
  { g with mounts := Function.update g.mounts g.mountCount m }

/-! ## The parser -/

/-- The text is not changed and `g_boot_config` is passed along. -/
abbrev M := Checked Unit

/-- `cfg_is_ws`. -/
def isWs (c : UInt8) : Bool := c == 32 || c == 9

/-- A byte of a token. -/
def isTok (c : UInt8) : Bool := !isWs c && c != carriageReturn

section

variable (text : Buf)

/-- `cfg_copy`. -/
def cfgCopy (dst : Buf) (s n : ℕ) : M Buf := do
  if dst.len = 0 then return dst
  let n := if dst.len ≤ n then dst.len - 1 else n
  let dst ← dst.copy 0 n text s
  dst.fill n 1 0

/-- `cfg_tok_len`. -/
def cfgTokLen (s e : ℕ) : M ℕ := do
  let p ← text.scan isTok s e
  return p - s

/-- `cfg_parse_mount`. -/
def cfgParseMount (g : BootConfig) (s e : ℕ) : M BootConfig := do
  if maxMounts ≤ g.mountCount then return g
  let p ← text.scan isWs s e
  let n ← cfgTokLen text p e
  if n = 0 then return g
  let dev ← cfgCopy text g.slot.dev p n
  let g := g.setSlot { g.slot with dev := dev }
  let p ← text.scan isWs (p + n) e
  let n ← cfgTokLen text p e
  if n = 0 then return g
  if (← text.get p) ≠ slash then return g
  let mountpoint ← cfgCopy text g.slot.mountpoint p n
  let g := g.setSlot { g.slot with mountpoint := mountpoint }
  let p ← text.scan isWs (p + n) e
  let n ← cfgTokLen text p e
  if n = 0 then return g
  let fstype ← cfgCopy text g.slot.fstype p n
  let g := g.setSlot { g.slot with fstype := fstype }
  let p ← text.scan isWs (p + n) e
  if p ≠ e then return g
  return { g with mountCount := g.mountCount + 1 }

/-- `kernel_strncmp(p, s, len) == 0` for a string `s` of `len` bytes. -/
def strncmpEq : ℕ → Str → M Bool
  | _, [] => return true
  | p, c :: s => do
    if (← text.get p) ≠ c then return false
    strncmpEq (p + 1) s

/-- `kn == len && kernel_strncmp(ks, key, len) == 0`. -/
def keyIs (ks kn : ℕ) (key : Str) : M Bool := do
  if kn ≠ key.length then return false
  strncmpEq text ks key

/-- The loop over the digits of a timeout: `n` bytes are left. -/
def timeoutLoop : ℕ → ℕ → ℕ → M ℕ
  | 0, _, v => return v
  | n + 1, p, v => do
    let c ← text.get p
    if 48 ≤ c ∧ c ≤ 57 then
      let v := v * 10 + (c.toNat - 48)
      if 300 < v then return 300
      timeoutLoop n (p + 1) v
    else return v

/-- The assignments of `cfg_parse_kv`: the key is `kn` bytes from `ks` on and
the value `vn` bytes from `vs` on. An unknown key is ignored. -/
def cfgAssign (g : BootConfig) (ks kn vs vn : ℕ) : M BootConfig := do
  if ← keyIs text ks kn pmmKey then
    let pmm ← cfgCopy text g.pmm vs vn
    return { g with pmm := pmm }
  else if ← keyIs text ks kn diskKey then
    let disk ← cfgCopy text g.disk vs vn
    return { g with disk := disk }
  else if ← keyIs text ks kn rootKey then
    let root ← cfgCopy text g.root vs vn
    return { g with root := root }
  else if ← keyIs text ks kn initKey then
    let init ← cfgCopy text g.init vs vn
    return { g with init := init }
  else if ← keyIs text ks kn debugKey then
    let debug ← cfgCopy text g.debug vs vn
    return { g with debug := debug }
  else if ← keyIs text ks kn timeoutKey then
    let v ← timeoutLoop text vn vs 0
    return { g with timeout := v }
  else return g

/-- `cfg_parse_kv`. -/
def cfgParseKv (g : BootConfig) (s e : ℕ) : M BootConfig := do
  let eq ← text.scan (· ≠ equals) s e
  if eq = e then return g
  let ke ← text.scanBack isWs s eq
  let vs ← text.scan isWs (eq + 1) e
  let ve ← text.scanBack (fun c => isWs c || c == carriageReturn) vs e
  cfgAssign text g s (ke - s) vs (ve - vs)

/-- Where the line from `line` to `ls` ends without a carriage return. -/
def lineEnd (line ls : ℕ) : M ℕ := do
  if ls ≤ line then return ls
  if (← text.get (ls - 1)) = carriageReturn then return ls - 1 else return ls

/-- The test for a `mount` line. -/
def isMountLine (p le : ℕ) : M Bool := do
  if le - p < 6 then return false
  if !(← strncmpEq text p mountWord) then return false
  return isWs (← text.get (p + 5))

/-- The line from `line` to `ls`. -/
def parseLine (g : BootConfig) (line ls : ℕ) : M BootConfig := do
  let le ← lineEnd text line ls
  let p ← text.scan isWs line le
  if p = le then return g
  if (← text.get p) = hash then return g
  let le ← text.scanBack isWs p le
  if ← isMountLine text p le then cfgParseMount text g (p + 5) le
  else cfgParseKv text g p le

/-- The loop over the text: `n` positions are left, the next is `ls`. -/
def parseLoop : ℕ → ℕ → ℕ → BootConfig → M BootConfig
  | 0, _, _, g => return g
  | n + 1, ls, line, g => do
    if ls = text.len then
      let g ← parseLine text g line ls
      parseLoop n (ls + 1) (ls + 1) g
    else if (← text.get ls) = newline then
      let g ← parseLine text g line ls
      parseLoop n (ls + 1) (ls + 1) g
    else parseLoop n (ls + 1) line g

end

/-- The part of `boot_info_t` that is read here. -/
structure BootInfo where
  magic : ℕ
  configAddr : ℕ
  configSize : ℕ

/-- The test on `boot`. -/
def BootInfo.Valid (boot : BootInfo) : Prop :=
  boot.magic = bootInfoMagic ∧ boot.configAddr ≠ 0 ∧ boot.configSize ≠ 0 ∧
    boot.configSize ≤ cfgMaxSize ∧ (boot.configAddr + boot.configSize) % 2 ^ 64 ≤ cfgIdentityLimit

instance (boot : BootInfo) : Decidable boot.Valid := inferInstanceAs (Decidable (_ ∧ _))

/-- `parse_apply_boot_config` up to the application, on the memory `mem`: the
text is `boot->config_size` bytes from `boot->config_addr` on. -/
def parseApplyBootConfig (boot : Option BootInfo) (mem : Bytes) : M BootConfig :=
  match boot with
  | none => return defaults
  | some boot => do
    if boot.Valid then
      let text : Buf := ⟨mem.shift boot.configAddr, boot.configSize⟩
      let g ← parseLoop text (boot.configSize + 1) 0 0 defaults
      return { g with present := true }
    else return defaults

end Config

end Csos
