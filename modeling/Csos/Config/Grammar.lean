import Csos.Config.Parse
/-!
# Boot configuration — the result

`parse_apply_boot_config` shows what the reference interpreter computes, where
a `mount` line takes three tokens without carriage returns. A line that the
interpreter ignores can therefore be deleted from the text.
-/

namespace Csos

namespace Config

open Vfs Checked

/-! ## Lines without effect -/

/-- The keys that are assigned. -/
def knownKeys : List Str := [pmmKey, diskKey, rootKey, initKey, debugKey, timeoutKey]

/-- **A line without effect**: blank, a comment, a `mount` line that is not
accepted, a line without an equals sign, or one with an unknown key. -/
inductive Inert (accept : Str → Option MountEntry) (line : Str) : Prop
  | blank (h : trim line = [])
  | comment (h : (trim line).head? = some hash)
  | mount (hm : StartsMount (trim line)) (h : accept ((trim line).drop 5) = none)
  | malformed (hm : ¬ StartsMount (trim line)) (h : equals ∉ trim line)
  | unknownKey (hm : ¬ StartsMount (trim line)) (h : keyOf (trim line) ∉ knownKeys)

variable {accept : Str → Option MountEntry} {s : Settings} {line text : Str} {ls ls' : List Str}

theorem assign_of_unknown {key value : Str} (h : key ∉ knownKeys) : s.assign key value = s := by
  simp only [knownKeys, List.mem_cons, List.not_mem_nil, or_false, not_or] at h
  obtain ⟨h₁, h₂, h₃, h₄, h₅, h₆⟩ := h
  rw [Settings.assign, if_neg h₁, if_neg h₂, if_neg h₃, if_neg h₄, if_neg h₅, if_neg h₆]

theorem applyLine_of_inert (h : Inert accept line) : applyLine accept s line = s := by
  rw [applyLine, applyTrimmed]
  by_cases hskip : trim line = [] ∨ (trim line).head? = some hash
  · rw [if_pos hskip]
  rw [if_neg hskip]
  cases h with
  | blank h => exact absurd (Or.inl h) hskip
  | comment h => exact absurd (Or.inr h) hskip
  | mount hm h =>
    rw [if_pos hm, h]
    rfl
  | malformed hm h => rw [if_neg hm, if_neg h]
  | unknownKey hm h =>
    rw [if_neg hm, assign_of_unknown h]
    split <;> rfl

/-- Some lines without effect are deleted. -/
inductive Deleted (accept : Str → Option MountEntry) : List Str → List Str → Prop
  | nil : Deleted accept [] []
  | keep (line : Str) {ls ls' : List Str} (h : Deleted accept ls ls') :
    Deleted accept (line :: ls) (line :: ls')
  | drop {line : Str} {ls ls' : List Str} (hi : Inert accept line) (h : Deleted accept ls ls') :
    Deleted accept (line :: ls) ls'

theorem Deleted.foldl_eq (h : Deleted accept ls ls') (s : Settings) :
    ls'.foldl (applyLine accept) s = ls.foldl (applyLine accept) s := by
  induction h generalizing s with
  | nil => rfl
  | keep line _ ih => exact ih _
  | drop hi _ ih => rw [List.foldl_cons, applyLine_of_inert hi, ih]

theorem Deleted.sublist (h : Deleted accept ls ls') : ls'.Sublist ls := by
  induction h with
  | nil => exact List.Sublist.refl []
  | keep line _ ih => exact ih.cons_cons line
  | drop _ _ ih => exact ih.cons _

theorem not_mem_of_mem_splitOn (h : line ∈ text.splitOn newline) : newline ∉ line := by
  induction text generalizing line with
  | nil =>
    rw [List.splitOn_nil, List.mem_singleton] at h
    subst h
    exact List.not_mem_nil
  | cons c text ih =>
    rw [List.splitOn_cons_eq_if_modifyHead] at h
    split at h
    · rcases List.mem_cons.mp h with rfl | h
      · exact List.not_mem_nil
      · exact ih h
    · rename_i hc
      obtain ⟨l, rest, hsplit⟩ := List.exists_cons_of_ne_nil (List.splitOn_ne_nil newline text)
      rw [hsplit] at h ih
      rcases List.mem_cons.mp h with rfl | h
      · have hl := ih List.mem_cons_self
        simp only [beq_iff_eq] at hc
        simp [hl, Ne.symm hc]
      · exact ih (List.mem_cons_of_mem l h)

/-- **Lines without effect can be deleted** from a text. -/
theorem interpret_deleted (h : Deleted accept (text.splitOn newline) ls) :
    interpret accept ([newline].intercalate ls) = interpret accept text := by
  have hfold := h.foldl_eq .initial
  by_cases hls : ls = []
  · subst hls
    exact hfold
  · have hlines : ∀ l ∈ ls, newline ∉ l := fun l hl => not_mem_of_mem_splitOn (h.sublist.mem hl)
    rw [interpret, List.splitOn_intercalate newline hlines hls, hfold]
    rfl

/-! ## The parser -/

/-- `boot` says where the text is. -/
structure Carries (boot : BootInfo) (mem : Bytes) (text : Str) : Prop where
  magic : boot.magic = bootInfoMagic
  addr : boot.configAddr ≠ 0
  size : boot.configSize ≤ cfgMaxSize
  limit : boot.configAddr + boot.configSize ≤ cfgIdentityLimit
  text : slice mem boot.configAddr (boot.configAddr + boot.configSize) = text

theorem ok_defaults : defaults.Ok :=
  ⟨rfl, rfl, rfl, rfl, rfl, fun _ => ⟨rfl, rfl, rfl⟩, Nat.zero_le _, by decide⟩

theorem visible_defaults : defaults.visible = .initial := by
  have hfield : ∀ {size : ℕ} {l : Str}, l.length < size → (0 : UInt8) ∉ l → shown (field size l) = l :=
    shown_field
  rw [BootConfig.visible, defaults]
  dsimp only
  rw [hfield (by decide) (by decide), hfield (by decide) (by decide), hfield (by decide) (by decide),
    hfield (by decide) (by decide), hfield (by decide) (by decide)]
  rfl

variable {boot : BootInfo} {mem : Bytes}

theorem parse_spec (h : Carries boot mem text) :
    ∃ g, parseApplyBootConfig (some boot) mem () = .ret (g, ()) ∧ g.Ok ∧
      g.visible = interpret plainTokens text := by
  have htext := h.text
  rw [parseApplyBootConfig]
  by_cases hsize : boot.configSize = 0
  · rw [if_neg fun hv => hv.2.2.1 hsize]
    rw [hsize, Nat.add_zero, slice_of_le le_rfl] at htext
    subst htext
    exact ⟨_, rfl, ok_defaults, visible_defaults⟩
  · have hvalid : boot.Valid := by
      have hlimit := h.limit
      have hmax : cfgIdentityLimit < 2 ^ 64 := by decide
      refine ⟨h.magic, h.addr, hsize, h.size, ?_⟩
      rw [Nat.mod_eq_of_lt (by omega)]
      exact hlimit
    have hslice : slice (mem.shift boot.configAddr) 0 boot.configSize = text := by
      rw [slice_shift, htext]
    have hcur : newline ∉ slice (mem.shift boot.configAddr) 0 0 := by
      rw [slice_of_le le_rfl]
      exact List.not_mem_nil
    obtain ⟨g, hrun, hok, hvis⟩ : ∃ g, parseLoop ⟨mem.shift boot.configAddr, boot.configSize⟩
        (boot.configSize + 1) 0 0 defaults () = .ret (g, ()) ∧ g.Ok ∧
          g.visible = ((slice (mem.shift boot.configAddr) 0 boot.configSize).splitOn newline).foldl
            (applyLine plainTokens) defaults.visible :=
      parseLoop_spec ok_defaults (Nat.zero_add _) le_rfl hcur
    rw [hslice, visible_defaults] at hvis
    rw [if_pos hvalid, bind_of_ret hrun]
    exact ⟨_, rfl, { hok with }, hvis⟩

/-- **The parser implements its line grammar**: it reads the text only, shows
what the interpreter computes with three plain tokens for a `mount` line, has a
timeout of at most 300, and shows the same for a text from which lines without
effect are deleted. -/
theorem boot_config_grammar (h : Carries boot mem text) :
    ∃ g, parseApplyBootConfig (some boot) mem () = .ret (g, ()) ∧
      g.visible = interpret plainTokens text ∧ g.timeout ≤ 300 ∧
      ∀ ls boot' mem', Deleted plainTokens (text.splitOn newline) ls →
        Carries boot' mem' ([newline].intercalate ls) →
        ∃ g', parseApplyBootConfig (some boot') mem' () = .ret (g', ()) ∧ g'.visible = g.visible := by
  obtain ⟨g, hrun, hok, hvis⟩ := parse_spec h
  refine ⟨g, hrun, hvis, hok.timeout, fun ls boot' mem' hdel hcarries => ?_⟩
  obtain ⟨g', hrun', -, hvis'⟩ := parse_spec hcarries
  exact ⟨g', hrun', by rw [hvis', hvis, interpret_deleted hdel]⟩

/-- The bytes of a text at 4096. -/
def memOf (text : Str) : Bytes := fun a => text.getD (a - 4096) 0

/-- `root=x`. -/
theorem boot_config_grammar_root :
    Carries ⟨bootInfoMagic, 4096, 6⟩ (memOf [114, 111, 111, 116, 61, 120]) [114, 111, 111, 116, 61, 120] ∧
    ∃ g, parseApplyBootConfig (some ⟨bootInfoMagic, 4096, 6⟩) (memOf [114, 111, 111, 116, 61, 120]) () =
      .ret (g, ()) ∧ g.visible.root = [120] := by
  have hcarries : Carries ⟨bootInfoMagic, 4096, 6⟩ (memOf [114, 111, 111, 116, 61, 120])
      [114, 111, 111, 116, 61, 120] := ⟨rfl, by decide, by decide, by decide, by decide⟩
  obtain ⟨g, hrun, hvis, -⟩ := boot_config_grammar hcarries
  refine ⟨hcarries, g, hrun, ?_⟩
  rw [hvis]
  decide

/-- **A carriage return inside a token**: `mount a /b c\rd` has three
blank-separated tokens and is not accepted. -/
theorem carriage_return_rejected :
    Carries ⟨bootInfoMagic, 4096, 14⟩
      (memOf [109, 111, 117, 110, 116, 32, 97, 32, 47, 98, 32, 99, 13, 100])
      [109, 111, 117, 110, 116, 32, 97, 32, 47, 98, 32, 99, 13, 100] ∧
    ∀ g, parseApplyBootConfig (some ⟨bootInfoMagic, 4096, 14⟩)
        (memOf [109, 111, 117, 110, 116, 32, 97, 32, 47, 98, 32, 99, 13, 100]) () = .ret (g, ()) →
      g.visible ≠ interpret threeTokens [109, 111, 117, 110, 116, 32, 97, 32, 47, 98, 32, 99, 13, 100] := by
  have hcarries : Carries ⟨bootInfoMagic, 4096, 14⟩
      (memOf [109, 111, 117, 110, 116, 32, 97, 32, 47, 98, 32, 99, 13, 100])
      [109, 111, 117, 110, 116, 32, 97, 32, 47, 98, 32, 99, 13, 100] :=
    ⟨rfl, by decide, by decide, by decide, by decide⟩
  obtain ⟨g, hrun, -, hvis⟩ := parse_spec hcarries
  refine ⟨hcarries, fun g' hrun' => ?_⟩
  rw [hrun] at hrun'
  cases hrun'
  rw [hvis]
  decide

end Config

end Csos
