import Csos.Config.Model
/-!
# Boot configuration — the line grammar

A configuration is a list of lines, each applied to the settings that the lines
before it have left. `interpret` takes what a `mount` line accepts as an
argument: `threeTokens` is three blank-separated tokens, and `plainTokens` also
wants no carriage return among them. The driver's own way through a `mount`
line, `takeToken` three times, is the latter: `threeTaken_eq`.
-/

namespace Csos

namespace Config

open Vfs

/-! ## The reference -/

/-- A mount of the configuration. -/
structure MountEntry where
  dev : Str
  mountpoint : Str
  fstype : Str
deriving DecidableEq

/-- What the configuration says. -/
structure Settings where
  pmm : Str
  disk : Str
  root : Str
  init : Str
  debug : Str
  timeout : ℕ
  mounts : List MountEntry
deriving DecidableEq

/-- The string that a field of `size` bytes shows for `s`. -/
def cstring (size : ℕ) (s : Str) : Str := (s.take (size - 1)).takeWhile (· ≠ 0)

/-- The settings of an empty configuration. -/
def Settings.initial : Settings where
  pmm := [98, 105, 116, 109, 97, 112]
  disk := [97, 116, 97, 45, 112, 105, 111]
  root := []
  init := [47, 115, 98, 105, 110, 47, 105, 110, 105, 116]
  debug := [115, 101, 114, 105, 97, 108]
  timeout := 3
  mounts := []

/-- A line without its carriage return. -/
def dropCr (l : Str) : Str := if l.getLast? = some carriageReturn then l.dropLast else l

/-- A line without its carriage return and the blanks around it. -/
def trim (l : Str) : Str := ((dropCr l).dropWhile isWs).rdropWhile isWs

/-- The tokens between blanks. -/
def tokens (l : Str) : List Str := (l.splitOnP isWs).filter (· ≠ [])

/-- The arguments of a `mount` line: a device, a mountpoint and a type. -/
def threeTokens (args : Str) : Option MountEntry :=
  match tokens args with
  | [d, m, f] => if m.head? = some slash then some ⟨cstring 32 d, cstring 64 m, cstring 16 f⟩ else none
  | _ => none

/-- The same, without a carriage return among them. -/
def plainTokens (args : Str) : Option MountEntry :=
  if carriageReturn ∈ args then none else threeTokens args

/-- The word `mount` and a blank. -/
def StartsMount (l : Str) : Prop := l.take 5 = mountWord ∧ l[5]?.any isWs = true

instance (l : Str) : Decidable (StartsMount l) := inferInstanceAs (Decidable (_ ∧ _))

/-- The number that the digits at the front of a value give, up to 300. -/
def timeoutOf (v : Str) : ℕ :=
  min 300 ((v.takeWhile fun c => 48 ≤ c ∧ c ≤ 57).foldl (fun n c => n * 10 + (c.toNat - 48)) 0)

/-- The key of a line with an equals sign. -/
def keyOf (l : Str) : Str := (l.takeWhile (· ≠ equals)).rdropWhile isWs

/-- Its value. -/
def valueOf (l : Str) : Str :=
  (((l.dropWhile (· ≠ equals)).drop 1).dropWhile isWs).rdropWhile fun c => isWs c || c == carriageReturn

/-- Sets the value of a key; an unknown key has none. -/
def Settings.assign (s : Settings) (key value : Str) : Settings :=
  if key = pmmKey then { s with pmm := cstring 16 value }
  else if key = diskKey then { s with disk := cstring 16 value }
  else if key = rootKey then { s with root := cstring 32 value }
  else if key = initKey then { s with init := cstring 256 value }
  else if key = debugKey then { s with debug := cstring 16 value }
  else if key = timeoutKey then { s with timeout := timeoutOf value }
  else s

/-- Adds a mount, if there is room. -/
def Settings.addMount (s : Settings) (m : Option MountEntry) : Settings :=
  match m with
  | none => s
  | some m => if s.mounts.length < maxMounts then { s with mounts := s.mounts ++ [m] } else s

/-- What a trimmed line does. -/
def applyTrimmed (accept : Str → Option MountEntry) (s : Settings) (l : Str) : Settings :=
  if l = [] ∨ l.head? = some hash then s
  else if StartsMount l then s.addMount (accept (l.drop 5))
  else if equals ∈ l then s.assign (keyOf l) (valueOf l)
  else s

/-- What a line does. -/
def applyLine (accept : Str → Option MountEntry) (s : Settings) (line : Str) : Settings :=
  applyTrimmed accept s (trim line)

/-- **The reference interpreter.** -/
def interpret (accept : Str → Option MountEntry) (text : Str) : Settings :=
  (text.splitOn newline).foldl (applyLine accept) .initial

/-! ## Tokens -/

/-- The next token, and what is left after it. -/
def takeToken (a : Str) : Str × Str :=
  ((a.dropWhile isWs).takeWhile isTok, (a.dropWhile isWs).dropWhile isTok)

/-- Three tokens and blanks. -/
def threeTaken (a : Str) : Option (Str × Str × Str) :=
  let (d, a) := takeToken a
  let (m, a) := takeToken a
  let (f, a) := takeToken a
  if d = [] ∨ m = [] ∨ f = [] ∨ a.dropWhile isWs ≠ [] then none else some (d, m, f)

variable {a b : Str}

theorem takeToken_append (a : Str) : a.takeWhile isWs ++ (takeToken a).1 ++ (takeToken a).2 = a := by
  rw [takeToken, List.append_assoc, List.takeWhile_append_dropWhile, List.takeWhile_append_dropWhile]

theorem cr_not_mem_takeToken (a : Str) : carriageReturn ∉ a.takeWhile isWs ∧
    carriageReturn ∉ (takeToken a).1 := by
  constructor
  · intro h
    have hws : isWs carriageReturn = true := List.mem_takeWhile_imp h
    exact absurd hws (by decide)
  · intro h
    have htok : isTok carriageReturn = true := List.mem_takeWhile_imp h
    exact absurd htok (by decide)

/-- A carriage return is still there after a token. -/
theorem cr_mem_takeToken_iff : carriageReturn ∈ (takeToken a).2 ↔ carriageReturn ∈ a := by
  obtain ⟨h1, h2⟩ := cr_not_mem_takeToken a
  conv_rhs => rw [← takeToken_append a]
  simp only [List.mem_append, h1, h2, false_or]

theorem threeTaken_of_cr (h : carriageReturn ∈ a) : threeTaken a = none := by
  have h3 : carriageReturn ∈ (takeToken (takeToken (takeToken a).2).2).2 := by
    rw [cr_mem_takeToken_iff, cr_mem_takeToken_iff, cr_mem_takeToken_iff]
    exact h
  have hne : (takeToken (takeToken (takeToken a).2).2).2.dropWhile isWs ≠ [] := by
    intro hnil
    have hws := List.dropWhile_eq_nil_iff.mp hnil _ h3
    exact absurd hws (by decide)
  rw [threeTaken]
  exact if_pos (Or.inr (Or.inr (Or.inr hne)))

theorem tokens_cons_of_ws {c : UInt8} (h : isWs c = true) : tokens (c :: a) = tokens a := by
  rw [tokens, List.splitOnP_cons_eq_if_modifyHead, if_pos h]
  rfl

theorem tokens_dropWhile (a : Str) : tokens (a.dropWhile isWs) = tokens a := by
  induction a with
  | nil => rfl
  | cons c a ih =>
    rw [List.dropWhile_cons]
    by_cases hc : isWs c = true
    · rw [if_pos hc, tokens_cons_of_ws hc, ih]
    · rw [if_neg hc]

/-- A token and what comes after it. -/
theorem tokens_append (ha : a ≠ []) (hall : ∀ c ∈ a, isWs c = false)
    (hb : ∀ c, b.head? = some c → isWs c = true) : tokens (a ++ b) = a :: tokens b := by
  cases b with
  | nil =>
    rw [List.append_nil, tokens, List.splitOnP_eq_singleton hall]
    simp [ha, tokens]
  | cons c b =>
    rw [tokens_cons_of_ws (hb c rfl), tokens, List.splitOnP_append_cons_of_forall_mem hall c (hb c rfl)]
    rw [List.filter_cons, if_pos (by simpa using ha), tokens]

theorem isTok_eq_of_not_cr {c : UInt8} (h : c ≠ carriageReturn) : isTok c = !isWs c := by
  simp [isTok, h]

theorem isTok_of_mem (h : carriageReturn ∉ a) : ∀ c ∈ a.dropWhile isWs, isTok c = !isWs c := by
  intro c hc
  refine isTok_eq_of_not_cr ?_
  rintro rfl
  exact h ((List.dropWhile_suffix isWs).mem hc)

/-- There is no next token only at the end of the text. -/
theorem takeToken_eq_nil_iff (h : carriageReturn ∉ a) :
    (takeToken a).1 = [] ↔ a.dropWhile isWs = [] := by
  have htok := isTok_of_mem h
  have hhead := List.head?_dropWhile_not isWs a
  rw [takeToken]
  generalize a.dropWhile isWs = b at htok hhead
  cases b with
  | nil => exact iff_of_true rfl rfl
  | cons c b =>
    have hc : isTok c = true := by
      rw [htok c List.mem_cons_self, show isWs c = false from hhead]
      rfl
    dsimp only
    rw [List.takeWhile_cons, if_pos hc]
    exact iff_of_false (by simp) (by simp)

/-- **The next token**, in a text without carriage returns. -/
theorem tokens_takeToken (h : carriageReturn ∉ a) :
    tokens a = if (takeToken a).1 = [] then [] else (takeToken a).1 :: tokens (takeToken a).2 := by
  have htok := isTok_of_mem h
  by_cases hnil : (takeToken a).1 = []
  · rw [if_pos hnil, ← tokens_dropWhile, (takeToken_eq_nil_iff h).mp hnil]
    rfl
  · rw [if_neg hnil, ← tokens_dropWhile]
    rw [takeToken] at hnil ⊢
    generalize a.dropWhile isWs = b at htok hnil
    conv_lhs => rw [← List.takeWhile_append_dropWhile (p := isTok) (l := b)]
    refine tokens_append hnil (fun c hc => ?_) fun c hc => ?_
    · have hm := List.mem_takeWhile_imp hc
      rw [htok c ((List.takeWhile_prefix isTok).mem hc)] at hm
      simpa using hm
    · have hn := List.head?_dropWhile_not isTok b
      rw [hc] at hn
      have hn : isTok c = false := hn
      rw [htok c ((List.dropWhile_suffix isTok).mem (List.mem_of_head? hc))] at hn
      simpa using hn

theorem tokens_eq_nil_iff (h : carriageReturn ∉ a) : tokens a = [] ↔ a.dropWhile isWs = [] := by
  rw [tokens_takeToken h, ← takeToken_eq_nil_iff h]
  split
  · exact iff_of_true rfl ‹_›
  · exact iff_of_false (by simp) ‹_›

/-- **Three tokens taken one by one** are the tokens of a text without carriage
returns. -/
theorem threeTaken_of_not_cr (h : carriageReturn ∉ a) :
    threeTaken a = match tokens a with
      | [d, m, f] => some (d, m, f)
      | _ => none := by
  have h1 : carriageReturn ∉ (takeToken a).2 := by rwa [cr_mem_takeToken_iff]
  have h2 : carriageReturn ∉ (takeToken (takeToken a).2).2 := by rwa [cr_mem_takeToken_iff]
  have h3 : carriageReturn ∉ (takeToken (takeToken (takeToken a).2).2).2 := by
    rwa [cr_mem_takeToken_iff]
  have hend := tokens_eq_nil_iff h3
  rw [threeTaken, tokens_takeToken h, tokens_takeToken h1, tokens_takeToken h2]
  dsimp only
  generalize (takeToken (takeToken (takeToken a).2).2).2 = r at hend
  by_cases hd : (takeToken a).1 = []
  · simp [hd]
  by_cases hm : (takeToken (takeToken a).2).1 = []
  · simp [hd, hm]
  by_cases hf : (takeToken (takeToken (takeToken a).2).2).1 = []
  · simp [hd, hm, hf]
  by_cases hr : r.dropWhile isWs = []
  · rw [hend.mpr hr]
    simp [hd, hm, hf, hr]
  · obtain ⟨t, ts, ht⟩ := List.exists_cons_of_ne_nil (mt hend.mp hr)
    rw [ht]
    simp [hd, hm, hf, hr]

/-- What the arguments of a `mount` line give, from the tokens taken one by
one. -/
theorem plainTokens_eq (a : Str) : plainTokens a =
    (threeTaken a).bind fun (d, m, f) =>
      if m.head? = some slash then some ⟨cstring 32 d, cstring 64 m, cstring 16 f⟩ else none := by
  rw [plainTokens]
  split
  · rw [threeTaken_of_cr ‹_›]
    rfl
  · rw [threeTaken_of_not_cr ‹_›, threeTokens]
    split
    · rfl
    · rfl

/-- The same, with the tokens named. -/
theorem plainTokens_of_taken {d m f a₁ a₂ a₃ : Str} (h₁ : takeToken a = (d, a₁))
    (h₂ : takeToken a₁ = (m, a₂)) (h₃ : takeToken a₂ = (f, a₃)) :
    plainTokens a =
      if d = [] ∨ m = [] ∨ f = [] ∨ a₃.dropWhile isWs ≠ [] ∨ m.head? ≠ some slash then none
      else some ⟨cstring 32 d, cstring 64 m, cstring 16 f⟩ := by
  rw [plainTokens_eq, threeTaken, h₁]
  dsimp only
  rw [h₂]
  dsimp only
  rw [h₃]
  dsimp only
  by_cases hslash : m.head? = some slash
  · simp only [hslash, ne_eq, not_true, or_false]
    split <;> simp [hslash]
  · simp only [hslash, ne_eq, not_false_iff, or_true, if_true]
    split <;> simp [hslash]

end Config

end Csos
