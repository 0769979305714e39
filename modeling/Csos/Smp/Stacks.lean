import Csos.Smp.Model
/-!
# Starting the other processors — one stack each

In a run in which no processor comes late, each gets the page tables of the
kernel, `ap_main` and a stack of its own, and it is the processor being
started that answers (`stacks_apart`). The bootinfo is stable from the first
SIPI to the answer, and nobody else looks at it then (`Stage`).

One that comes late reads what is meant for the next one: two processors then
run on one stack (`late_shares_stack`).
-/

namespace Csos

namespace Smp

open Pmm (pageSize invalidAddr)

variable {m : Machine} {s s' : State} {a b id st c e n page : ℕ}

/-! ## The invariant -/

/-- Nobody is on the way who is not late. -/
def Idle (s : State) : Prop := ∀ a ∉ s.late, ¬ (s.ap a).moves

/-- The stack is on a page that is taken, and no processor has it. -/
def Fresh (s : State) (st : ℕ) : Prop :=
  (∃ p < 131072, st = (p + 1) * pageSize ∧ p ∉ s.pmm.freeSet) ∧ ∀ a, (s.ap a).stackOf ≠ some st

/-- **The processor being started has the bootinfo for itself.** -/
structure Handed (m : Machine) (s : State) : Prop where
  cr3 : s.info.cr3 = m.cr3
  small : m.cr3 < 2 ^ 32
  entry : s.info.entry = m.apMain
  page : ∃ p < 131072, s.info.stack = (p + 1) * pageSize ∧ p ∉ s.pmm.freeSet
  stack : ∀ a ≠ target m s, (s.ap a).stackOf ≠ some s.info.stack
  only : ∀ a ∉ s.late, (s.ap a).moves → a = target m s
  here : target m s ∉ s.late
  answer : s.info.started ≠ 0 → (s.ap (target m s)).isOnline

/-- What is known where the bootstrap processor is. -/
def Stage (m : Machine) (s : State) : Prop :=
  match s.pc with
  | .next | .alloc | .done | .fault => Idle s
  | .clear page => Idle s ∧ (page = invalidAddr ∨ Fresh s (page + pageSize))
  | .copy page | .setStarted page => Idle s ∧ Fresh s (page + pageSize)
  | .setCr3 page => Idle s ∧ Fresh s (page + pageSize) ∧ s.info.started = 0
  | .setStack page => Idle s ∧ Fresh s (page + pageSize) ∧ s.info.started = 0 ∧ s.info.cr3 = m.cr3
  | .setEntry => Idle s ∧ Fresh s s.info.stack ∧ s.info.started = 0 ∧ s.info.cr3 = m.cr3
  | .check => Idle s ∧ Fresh s s.info.stack ∧ s.info.started = 0 ∧ s.info.cr3 = m.cr3 ∧
      s.info.entry = m.apMain
  | .init => Idle s ∧ Fresh s s.info.stack ∧ s.info.started = 0 ∧ s.info.cr3 = m.cr3 ∧
      s.info.entry = m.apMain ∧ m.cr3 < 2 ^ 32
  | .sipi _ | .spin _ => Handed m s

/-- **What every processor has got.** -/
structure Apart (m : Machine) (s : State) : Prop where
  inv : Pmm.Inv s.pmm
  own : ∀ a st, (s.ap a).stackOf = some st → ∃ p, st = (p + 1) * pageSize ∧ p ∉ s.pmm.freeSet
  alone : ∀ a b st, (s.ap a).stackOf = some st → (s.ap b).stackOf = some st → a = b
  cr3 : ∀ a c, (s.ap a).cr3Of = some c → c = m.cr3
  entry : ∀ a e, (s.ap a).entryOf = some e → e = m.apMain
  stage : Stage m s

/-- Nothing loaded yet. -/
def Ap.blank : Ap → Prop
  | .off | .real => True
  | _ => False

theorem Ap.blank.none {x : Ap} (h : x.blank) : x.stackOf = none ∧ x.cr3Of = none ∧ x.entryOf = none := by
  cases x <;> simp_all [Ap.blank, Ap.stackOf, Ap.cr3Of, Ap.entryOf]

/-- The bootstrap processor goes on: processors stay as they are, or start. -/
theorem Apart.frame (A : Apart m s) (hinv : Pmm.Inv s'.pmm) (hfree : s'.pmm.freeSet ⊆ s.pmm.freeSet)
    (hap : ∀ a, s'.ap a = s.ap a ∨ (s'.ap a).blank) (hstage : Stage m s') : Apart m s' := by
  refine ⟨hinv, fun a st ha => ?_, fun a b st ha hb => ?_, fun a c ha => ?_, fun a e ha => ?_, hstage⟩
  · rcases hap a with h | h
    · obtain ⟨p, hp, hn⟩ := A.own a st (h ▸ ha)
      exact ⟨p, hp, fun hm => hn (hfree hm)⟩
    · rw [h.none.1] at ha
      cases ha
  · rcases hap a with h | h
    · rcases hap b with h' | h'
      · exact A.alone a b st (h ▸ ha) (h' ▸ hb)
      · rw [h'.none.1] at hb
        cases hb
    · rw [h.none.1] at ha
      cases ha
  · rcases hap a with h | h
    · exact A.cr3 a c (h ▸ ha)
    · rw [h.none.2.1] at ha
      cases ha
  · rcases hap a with h | h
    · exact A.entry a e (h ▸ ha)
    · rw [h.none.2.2] at ha
      cases ha

/-- The same, where no processor is touched. -/
theorem Apart.goes (A : Apart m s) (hpmm : s'.pmm = s.pmm) (hap : s'.ap = s.ap) (hstage : Stage m s') :
    Apart m s' :=
  A.frame (hpmm ▸ A.inv) (by rw [hpmm]) (fun a => .inl (by rw [hap])) hstage

/-- A page is allocated. -/
theorem Apart.allocated (A : Apart m s) {pmm : Pmm.State} (h : s.pmm.allocPage = (page, pmm)) :
    Pmm.Inv pmm ∧ pmm.freeSet ⊆ s.pmm.freeSet ∧ (page = invalidAddr ∨
      (∃ p < 131072, page + pageSize = (p + 1) * pageSize ∧ p ∉ pmm.freeSet) ∧
        ∀ a, (s.ap a).stackOf ≠ some (page + pageSize)) := by
  rcases A.inv.allocPage with ⟨-, hr⟩ | ⟨p, pmm', hr, hp, -, hl, -⟩
  · rw [hr] at h
    cases h
    exact ⟨A.inv, subset_rfl, .inl rfl⟩
  · rw [hr] at h
    cases h
    have hlt : p < 131072 := (Pmm.mem_freeSet.mp hp).1.trans_le A.inv.managed
    have hst : p * pageSize + pageSize = (p + 1) * pageSize := by ring
    refine ⟨hl.inv, ?_, .inr ⟨⟨p, hlt, hst, ?_⟩, fun a ha => ?_⟩⟩
    · rw [hl.freeSet]
      exact Finset.erase_subset _ _
    · rw [hl.freeSet]
      exact Finset.notMem_erase _ _
    · obtain ⟨q, hq, hn⟩ := A.own a _ ha
      rw [hst] at hq
      have heq : p = q := by
        have := Nat.eq_of_mul_eq_mul_right (by norm_num) hq
        omega
      exact hn (heq ▸ hp)

/-- **The bootstrap processor** hands one stack to one processor. -/
theorem Apart.bspStep (A : Apart m s) (h : bspStep m s = some s') : Apart m s' := by
  have hstage := A.stage
  unfold Smp.bspStep at h
  unfold Stage at hstage
  cases hpc : s.pc with
  | next =>
    rw [hpc] at h hstage
    rcases hcpu : m.cpus[s.i]? with _ | cpu
    · simp only [hcpu, Option.some.injEq] at h
      subst h
      exact A.goes rfl rfl hstage
    · simp only [hcpu] at h
      split_ifs at h <;> cases h
      · exact A.goes rfl rfl hstage
      · exact A.goes rfl rfl hstage
  | alloc =>
    rw [hpc] at h hstage
    rcases hr : s.pmm.allocPage with ⟨page, pmm⟩
    obtain ⟨hinv, hsub, hfresh⟩ := A.allocated hr
    simp only [hr] at h
    split_ifs at h <;> cases h
    · exact A.goes rfl rfl hstage
    · exact A.frame hinv hsub (fun a => .inl rfl) hstage
    · exact A.frame hinv hsub (fun a => .inl rfl) ⟨hstage, hfresh⟩
  | clear page =>
    rw [hpc] at h hstage
    cases h
    refine A.goes rfl rfl ?_
    by_cases hinv : page = invalidAddr
    · rw [if_pos hinv]
      exact hstage.1
    · rw [if_neg hinv]
      exact ⟨hstage.1, hstage.2.resolve_left hinv⟩
  | copy page =>
    rw [hpc] at h hstage
    cases h
    exact A.goes rfl rfl hstage
  | setStarted page =>
    rw [hpc] at h hstage
    cases h
    exact A.goes rfl rfl ⟨hstage.1, hstage.2, rfl⟩
  | setCr3 page =>
    rw [hpc] at h hstage
    cases h
    exact A.goes rfl rfl ⟨hstage.1, hstage.2.1, hstage.2.2, rfl⟩
  | setStack page =>
    rw [hpc] at h hstage
    obtain ⟨hidle, hfresh, hst, hcr3⟩ := hstage
    obtain ⟨p, hp, hpage, -⟩ := hfresh.1
    have hmod : (page + pageSize) % 2 ^ 64 = page + pageSize := by
      refine Nat.mod_eq_of_lt ?_
      rw [hpage]
      unfold pageSize
      omega
    simp only [hmod, Option.some.injEq] at h
    subst h
    exact A.goes rfl rfl ⟨hidle, hfresh, hst, hcr3⟩
  | setEntry =>
    rw [hpc] at h hstage
    cases h
    exact A.goes rfl rfl ⟨hstage.1, hstage.2.1, hstage.2.2.1, hstage.2.2.2, rfl⟩
  | check =>
    rw [hpc] at h hstage
    cases h
    obtain ⟨hidle, hfresh, hst, hcr3, hentry⟩ := hstage
    by_cases hbig : 0xFFFFFFFF < s.info.cr3
    · rw [if_pos hbig]
      exact A.goes rfl rfl hidle
    · rw [if_neg hbig]
      exact A.goes rfl rfl ⟨hidle, hfresh, hst, hcr3, hentry, by omega⟩
  | init =>
    rw [hpc] at h hstage
    cases h
    obtain ⟨hidle, hfresh, hst, hcr3, hentry, hsmall⟩ := hstage
    refine A.frame A.inv subset_rfl (fun a => ?_) ⟨hcr3, hsmall, hentry, hfresh.1, ?_, ?_, ?_,
      fun hne => absurd hst hne⟩
    · by_cases ha : a = target m s
      · subst ha
        simp [Ap.blank]
      · simp [ha]
    · intro a ha
      have : a ≠ target m s := ha
      simp only [Function.update_of_ne this]
      exact hfresh.2 a
    · intro a ha hmoves
      by_contra hne
      have hne' : a ≠ target m s := hne
      simp only [Function.update_of_ne hne'] at hmoves
      refine hidle a (fun hl => ha ?_) hmoves
      simp [hl, hne']
    · show target m s ∉ s.late.filter (· ≠ target m s)
      simp
  | sipi again =>
    rw [hpc] at h hstage
    cases h
    obtain ⟨ap', hap'⟩ : ∃ ap', ap' = Function.update s.ap (target m s) (s.ap (target m s)).sipi := ⟨_, rfl⟩
    have hother : ∀ a ≠ target m s, ap' a = s.ap a := by
      intro a ha
      rw [hap', Function.update_of_ne ha]
    have htarget : ap' (target m s) = s.ap (target m s) ∨
        s.ap (target m s) = .off ∧ ap' (target m s) = .real := by
      rw [hap', Function.update_self]
      cases hs : s.ap (target m s)
      case off => exact .inr ⟨rfl, rfl⟩
      all_goals exact .inl rfl
    have hH (pc : Pc) : Handed m { s with ap := ap', pc := pc } := by
      refine ⟨hstage.cr3, hstage.small, hstage.entry, hstage.page, fun a ha => ?_, fun a ha hmoves => ?_,
        hstage.here, fun hne => ?_⟩
      · show (ap' a).stackOf ≠ _
        rw [hother a ha]
        exact hstage.stack a ha
      · by_contra hne
        refine hne (hstage.only a ha ?_)
        rwa [← hother a hne]
      · have honline := hstage.answer hne
        show (ap' (target m s)).isOnline
        rcases htarget with h | ⟨h, -⟩
        · rwa [h]
        · rw [h] at honline
          exact honline.elim
    rw [← hap']
    refine A.frame A.inv subset_rfl (fun a => ?_) ?_
    · by_cases ha : a = target m s
      · subst ha
        refine htarget.imp_right fun h => ?_
        show (ap' (target m s)).blank
        rw [h.2]
        trivial
      · exact .inl (hother a ha)
    · cases again <;> exact hH _
  | spin n =>
    rw [hpc] at h hstage
    have hanswered : ∀ late : List ℕ, (∀ a ∈ s.late, a ∈ late) → (s.info.started ≠ 0 ∨ target m s ∈ late) →
        ∀ a ∉ late, ¬ (s.ap a).moves := by
      intro late hsub hout a ha hmoves
      have he := hstage.only a (fun hl => ha (hsub a hl)) hmoves
      subst he
      rcases hout with hne | hmem
      · have honline := hstage.answer hne
        cases hs : s.ap (target m s) <;> rw [hs] at honline hmoves
        case online => exact hmoves
        all_goals exact honline
      · exact ha hmem
    simp only at h
    split_ifs at h with hlt hne <;> cases h
    · exact A.goes rfl rfl (hanswered s.late (fun _ h => h) (.inl hne))
    · exact A.goes rfl rfl ⟨hstage.cr3, hstage.small, hstage.entry, hstage.page, hstage.stack, hstage.only,
        hstage.here, hstage.answer⟩
    · exact A.goes rfl rfl (hanswered (target m s :: s.late) (fun _ h => List.mem_cons_of_mem _ h)
        (.inr List.mem_cons_self))
  | done =>
    rw [hpc] at h
    cases h
  | fault =>
    rw [hpc] at h
    cases h

/-- The processor being started takes a step with the bootinfo. -/
theorem Apart.takes (A : Apart m s) (H : Handed m s) {x : Ap} {info : BootInfo}
    (hinfo : info.cr3 = s.info.cr3 ∧ info.stack = s.info.stack ∧ info.entry = s.info.entry)
    (hstack : ∀ st, x.stackOf = some st → (s.ap (target m s)).stackOf = some st ∨ st = s.info.stack)
    (hcr3 : ∀ c, x.cr3Of = some c → c = m.cr3) (hentry : ∀ e, x.entryOf = some e → e = m.apMain)
    (hanswer : info.started ≠ 0 → x.isOnline)
    (hpc : ∀ s' : State, s'.pc = s.pc → Handed m s' → Stage m s') :
    Apart m { s with ap := Function.update s.ap (target m s) x, info := info } := by
  have hcases : ∀ a, (Function.update s.ap (target m s) x) a = s.ap a ∨
      a = target m s ∧ (Function.update s.ap (target m s) x) a = x := by
    intro a
    by_cases ha : a = target m s
    · subst ha
      exact .inr ⟨rfl, Function.update_self ..⟩
    · exact .inl (Function.update_of_ne ha ..)
  have hown : ∀ st, x.stackOf = some st →
      (∃ p, st = (p + 1) * pageSize ∧ p ∉ s.pmm.freeSet) ∧ ∀ b ≠ target m s, (s.ap b).stackOf ≠ some st := by
    intro st hst
    rcases hstack st hst with h | rfl
    · exact ⟨A.own _ st h, fun b hb hbs => hb (A.alone b _ st hbs h)⟩
    · obtain ⟨p, -, hp⟩ := H.page
      exact ⟨⟨p, hp⟩, H.stack⟩
  refine ⟨A.inv, fun a st ha => ?_, fun a b st ha hb => ?_, fun a c ha => ?_, fun a e ha => ?_, ?_⟩
  · rcases hcases a with h | ⟨-, h⟩
    · exact A.own a st (h ▸ ha)
    · exact (hown st (h ▸ ha)).1
  · rcases hcases a with h | ⟨rfl, h⟩
    · rcases hcases b with h' | ⟨rfl, h'⟩
      · exact A.alone a b st (h ▸ ha) (h' ▸ hb)
      · by_contra hne
        exact (hown st (h' ▸ hb)).2 a hne (h ▸ ha)
    · by_contra hne
      have hne' : b ≠ target m s := fun he => hne he.symm
      rcases hcases b with h' | ⟨rfl, -⟩
      · exact (hown st (h ▸ ha)).2 b hne' (h' ▸ hb)
      · exact hne' rfl
  · rcases hcases a with h | ⟨-, h⟩
    · exact A.cr3 a c (h ▸ ha)
    · exact hcr3 c (h ▸ ha)
  · rcases hcases a with h | ⟨-, h⟩
    · exact A.entry a e (h ▸ ha)
    · exact hentry e (h ▸ ha)
  · refine hpc _ rfl ⟨hinfo.1.trans H.cr3, H.small, hinfo.2.2.trans H.entry, ?_, fun a ha => ?_,
      fun a ha hmoves => ?_, H.here, fun hne => ?_⟩
    · obtain ⟨p, hp, hst, hn⟩ := H.page
      exact ⟨p, hp, hinfo.2.1.trans hst, hn⟩
    · have ha' : a ≠ target m s := ha
      simp only [Function.update_of_ne ha', hinfo.2.1]
      exact H.stack a ha'
    · by_contra hne
      have hne' : a ≠ target m s := hne
      simp only [Function.update_of_ne hne'] at hmoves
      exact hne' (H.only a ha hmoves)
    · show ((Function.update s.ap (target m s) x) (target m s)).isOnline
      rw [Function.update_self]
      exact hanswer hne

/-- **A processor that is not late** takes what is meant for it. -/
theorem Apart.apStep (A : Apart m s) (hid : id ∉ s.late) (h : apStep m s id = some s') : Apart m s' := by
  have hmoves : (s.ap id).moves := by
    unfold Smp.apStep at h
    cases hs : s.ap id <;> rw [hs] at h
    case off => cases h
    case online => cases h
    all_goals trivial
  have hH : Handed m s ∧ ∀ s' : State, s'.pc = s.pc → Handed m s' → Stage m s' := by
    have hstage := A.stage
    unfold Stage at hstage ⊢
    cases hpc : s.pc <;> rw [hpc] at hstage
    case sipi again => exact ⟨hstage, fun s' h hH => by rw [h]; exact hH⟩
    case spin n => exact ⟨hstage, fun s' h hH => by rw [h]; exact hH⟩
    case next => exact absurd hmoves (hstage id hid)
    case alloc => exact absurd hmoves (hstage id hid)
    case done => exact absurd hmoves (hstage id hid)
    case fault => exact absurd hmoves (hstage id hid)
    all_goals exact absurd hmoves (hstage.1 id hid)
  obtain ⟨H, hpc⟩ := hH
  have he := H.only id hid hmoves
  subst he
  have hzero : s.info.started = 0 := by
    by_contra hne
    have honline := H.answer hne
    cases hs : s.ap (target m s) <;> rw [hs] at honline hmoves
    case online => exact hmoves
    all_goals exact honline
  have hcr3 := A.cr3 (target m s)
  have hentry := A.entry (target m s)
  unfold Smp.apStep at h
  cases hs : s.ap (target m s) with
  | off =>
    rw [hs] at h
    cases h
  | online _ _ _ =>
    rw [hs] at h
    cases h
  | real =>
    rw [hs] at h
    cases h
    refine A.takes H ⟨rfl, rfl, rfl⟩ (fun st hst => ?_) (fun c hc => ?_) (fun e he => ?_)
      (fun hne => absurd hzero hne) hpc
    · cases hst
    · cases hc
      rw [H.cr3, Nat.mod_eq_of_lt H.small]
    · cases he
  | paged cr3 =>
    rw [hs] at h hcr3
    cases h
    refine A.takes H ⟨rfl, rfl, rfl⟩ (fun st hst => ?_) hcr3 (fun e he => ?_)
      (fun hne => absurd hzero hne) hpc
    · cases hst
      exact .inr rfl
    · cases he
  | stacked cr3 stack =>
    rw [hs] at h hcr3
    cases h
    refine A.takes H ⟨rfl, rfl, rfl⟩ (fun st hst => ?_) hcr3 (fun e he => ?_)
      (fun hne => absurd hzero hne) hpc
    · rw [hs]
      exact .inl hst
    · cases he
      exact H.entry
  | entered cr3 stack entry =>
    rw [hs] at h hcr3 hentry
    dsimp only at h
    split_ifs at h with hmain
    cases h
    refine A.takes H ⟨rfl, rfl, rfl⟩ (fun st hst => ?_) hcr3 hentry (fun _ => trivial) hpc
    rw [hs]
    exact .inl hst

/-! ## Runs -/

theorem apart_of_booted (h : Booted s) : Apart m s := by
  have hap : ∀ a, (s.ap a).stackOf = none ∧ (s.ap a).cr3Of = none ∧ (s.ap a).entryOf = none := fun a => by
    rw [h.ap]
    exact ⟨rfl, rfl, rfl⟩
  refine ⟨h.pmm, by simp [hap], by simp [hap], by simp [hap], by simp [hap], ?_⟩
  unfold Stage
  rw [h.pc]
  intro a _
  rw [h.ap]
  exact id

/-- **One stack each.** In a run in which no processor moves that was given
up, the processors that have a stack have different ones, on pages that are
taken; each runs with the page tables of the kernel, at `ap_main`; and what
the bootstrap processor takes for an answer is the answer of the processor it
has started. -/
theorem stacks_apart (h : ((processors m).restrict Punctual).Reachable s) :
    (∀ a b st, (s.ap a).stackOf = some st → (s.ap b).stackOf = some st → a = b) ∧
    (∀ a st, (s.ap a).stackOf = some st → ∃ p, st = (p + 1) * pageSize ∧ ¬ s.pmm.isFree p) ∧
    (∀ a c, (s.ap a).cr3Of = some c → c = m.cr3) ∧ (∀ a e, (s.ap a).entryOf = some e → e = m.apMain) ∧
    ∀ n, s.pc = .spin n → s.info.started ≠ 0 → (s.ap (target m s)).isOnline := by
  have A : Apart m s := by
    refine h.invariant (fun s hs => apart_of_booted hs) fun s x s' _ A hs => ?_
    obtain ⟨hp, hs⟩ := hs
    cases x with
    | bsp => exact A.bspStep hs
    | ap id => exact A.apStep hp hs
  refine ⟨A.alone, fun a st ha => ?_, A.cr3, A.entry, fun n hpc hne => ?_⟩
  · obtain ⟨p, hp, hn⟩ := A.own a st ha
    exact ⟨p, hp, fun hf => hn (Pmm.mem_freeSet.mpr hf)⟩
  · have hstage := A.stage
    unfold Stage at hstage
    rw [hpc] at hstage
    exact hstage.answer hne

/-- Three processors, of which the first one boots. -/
def trio : Machine := ⟨[⟨0, 0, 1⟩, ⟨1, 1, 1⟩, ⟨2, 2, 1⟩], 0, 0x1000, 0x200000, 256⟩

/-- Three pages are free, from page 1 on. -/
def trioPages : List Pmm.Op := [.init 4, .markFree 0 16384, .allocPage]

def trioState : State :=
  ⟨(trioPages.foldl Pmm.Traced.step ⟨Pmm.unset, ∅⟩).pmm, ⟨0, 0, 0, 0⟩, .next, 0, 0, fun _ => .off, []⟩

theorem trio_booted : Booted trioState := by
  refine ⟨Pmm.inv_reachable (Pmm.reachable_foldl (C := fun _ _ => True) _ _ (.init rfl) ?_).of_restrict, rfl,
    fun _ => rfl, rfl⟩
  exact fun _ _ => trivial

/-- The steps of a run in which nobody who was given up moves. -/
def punctualStep (m : Machine) (s : State) (x : Act) : Option State :=
  match x with
  | .bsp => step m s .bsp
  | .ap id => if id ∈ s.late then none else step m s (.ap id)

theorem punctualStep_spec {x : Act} (h : punctualStep m s x = some s') :
    ((processors m).restrict Punctual).step s x s' := by
  cases x with
  | bsp => exact ⟨trivial, h⟩
  | ap id =>
    unfold punctualStep at h
    dsimp only at h
    split_ifs at h with hl
    exact ⟨hl, h⟩

/-- The first processor is started and answers. -/
def firstAnswers : List Act := List.replicate 13 .bsp ++ List.replicate 4 (.ap 1)

def firstState : State := (System.run (punctualStep trio) trioState firstAnswers).getD trioState

theorem firstState_reachable : ((processors trio).restrict Punctual).Reachable firstState := by
  have hr : System.run (punctualStep trio) trioState firstAnswers = some firstState := by
    have hsome : (System.run (punctualStep trio) trioState firstAnswers).isSome = true := by decide +kernel
    unfold firstState
    rcases hs : System.run (punctualStep trio) trioState firstAnswers with _ | s
    · rw [hs] at hsome
      cases hsome
    · rfl
  exact (System.Reachable.init trio_booted).run (fun _ _ _ h => punctualStep_spec h) hr

/-- Its stack is page 1. -/
theorem stacks_apart_first : (firstState.ap 1).stackOf = some 8192 ∧
    ∃ p, 8192 = (p + 1) * pageSize ∧ ¬ firstState.pmm.isFree p := by
  have hst : (firstState.ap 1).stackOf = some 8192 := by decide +kernel
  exact ⟨hst, (stacks_apart firstState_reachable).2.1 1 8192 hst⟩

/-- The bootstrap processor waits while nobody answers. -/
theorem spins (hz : s.info.started = 0) : ∀ k n, n + k ≤ spinLimit → s.pc = .spin n →
    (processors m).Reachable s → (processors m).Reachable { s with pc := .spin (n + k) } := by
  intro k
  induction k with
  | zero =>
    intro n _ hpc h
    have : { s with pc := .spin (n + 0) } = s := by rw [Nat.add_zero, ← hpc]
    rwa [this]
  | succ k ih =>
    intro n hle hpc h
    refine (ih n (by omega) hpc h).step (i := .bsp) ?_
    show bspStep m { s with pc := .spin (n + k) } = some { s with pc := .spin (n + k + 1) }
    unfold bspStep
    dsimp only
    rw [if_pos (show n + k < spinLimit by omega), if_neg (not_not.mpr hz)]

/-- The first processor has been sent to the trampoline. -/
def sent : State := (System.run (step trio) trioState (List.replicate 13 .bsp)).getD trioState

/-- It loads the stack that is meant for the second one, which loads it
too. -/
def lateRun : List Act := List.replicate 12 .bsp ++ [.ap 1, .ap 1, .ap 2, .ap 2]

theorem reachable_getD {l : List Act} (h : (processors m).Reachable s)
    (hsome : (System.run (step m) s l).isSome = true) :
    (processors m).Reachable ((System.run (step m) s l).getD s) := by
  rcases hs : System.run (step m) s l with _ | s'
  · rw [hs] at hsome
    cases hsome
  · exact h.run (fun _ _ _ h => h) hs

/-- **Two processors on one stack**, if one of them was late. -/
theorem late_shares_stack : ¬ ∀ s, (processors trio).Reachable s →
    ∀ a b st, (s.ap a).stackOf = some st → (s.ap b).stackOf = some st → a = b := by
  intro hall
  have hsent : (processors trio).Reachable sent := reachable_getD (.init trio_booted) (by decide +kernel)
  have hgiven := spins (by decide +kernel) spinLimit 0 (Nat.zero_add _).le (by decide +kernel) hsent
  rw [Nat.zero_add] at hgiven
  have hlate := reachable_getD (l := lateRun) hgiven (by decide +kernel)
  exact absurd (hall _ hlate 1 2 12288 (by decide +kernel) (by decide +kernel)) (by decide)

end Smp

end Csos
