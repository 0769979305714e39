import Csos.Common.Runs
/-!
# Critical sections under a spinlock

Processors share some data behind a spinlock. A context turns interrupts off
before it spins for the lock and puts them back as they were after it has let
the lock go; an interrupt parks the context it comes in, and a handler ends by
going on with a parked one, on whichever processor.

`guarded_of_reachable` is what the lock and the interrupt flag promise together:
one context at most is inside, and no interrupted context holds the lock or
waits for it. From this the sections run as if each were one step, in the
order they let the lock go (`serial_of_reachable`), and a context that waits
waits for another processor, which can go on (`waits_for_other`).
-/

namespace Csos

namespace Sections

/-- The code of the contexts: what they do outside of the sections, with the
part `ε` of the world that is theirs, and the steps of a section. -/
structure Code (κ γ β σ ε : Type*) where
  /-- A section is called, with these arguments. -/
  call : γ → Option β
  /-- A step of a section, `none` at its end. -/
  body : β → σ → Option (β × σ)
  ret : β → γ
  /-- A step outside, which may turn interrupts on and off. -/
  out : κ → Bool → γ → ε → Bool → γ → ε → Prop
  /-- An interrupt can come to a processor, and starts like this. -/
  irq : κ → γ → Prop
  /-- The context asks for an interrupt itself. -/
  trap : γ → γ → Prop
  /-- A handler is at its end. -/
  iret : γ → Prop
  world : ε → ε → Prop

inductive Phase (γ β : Type*)
  | outside (c : γ)
  | waiting (flags : Bool) (b : β)
  | inside (flags : Bool) (b : β)
  | leaving (flags : Bool) (b : β)

/-- A context that runs or is parked: whether interrupts are on, and where it
is. -/
structure Running (γ β : Type*) where
  on : Bool
  phase : Phase γ β

structure State (κ γ β σ ε : Type*) where
  locked : Bool
  data : σ
  env : ε
  cpu : κ → Running γ β
  parked : List (Running γ β)
  /-- The sections that have been left, in order, as they ended. -/
  ended : List β

variable {κ γ β σ ε : Type*} [DecidableEq κ]

/-- Processor `i` goes on as `p`. -/
def State.goes (s : State κ γ β σ ε) (i : κ) (p : Running γ β) : State κ γ β σ ε :=
  { s with cpu := Function.update s.cpu i p }

/-- The steps of the contexts and of the world. -/
inductive Step (P : Code κ γ β σ ε) : State κ γ β σ ε → Option κ → State κ γ β σ ε → Prop
  | out {s i on c on' c' e'} (h : s.cpu i = ⟨on, .outside c⟩) (ho : P.out i on c s.env on' c' e') :
      Step P s (some i) { s.goes i ⟨on', .outside c'⟩ with env := e' }
  | world {s e'} (h : P.world s.env e') : Step P s none { s with env := e' }
  | save {s i on c b} (h : s.cpu i = ⟨on, .outside c⟩) (hc : P.call c = some b) :
      Step P s (some i) (s.goes i ⟨false, .waiting on b⟩)
  | lock {s i on fl b} (h : s.cpu i = ⟨on, .waiting fl b⟩) (hl : s.locked = false) :
      Step P s (some i) { s.goes i ⟨on, .inside fl b⟩ with locked := true }
  | spin {s i on fl b} (h : s.cpu i = ⟨on, .waiting fl b⟩) (hl : s.locked = true) : Step P s (some i) s
  | body {s i on fl b b' d'} (h : s.cpu i = ⟨on, .inside fl b⟩) (hb : P.body b s.data = some (b', d')) :
      Step P s (some i) { s.goes i ⟨on, .inside fl b'⟩ with data := d' }
  | unlock {s i on fl b} (h : s.cpu i = ⟨on, .inside fl b⟩) (hb : P.body b s.data = none) :
      Step P s (some i) { s.goes i ⟨on, .leaving fl b⟩ with locked := false, ended := s.ended ++ [b] }
  | restore {s i on fl b} (h : s.cpu i = ⟨on, .leaving fl b⟩) :
      Step P s (some i) (s.goes i ⟨fl, .outside (P.ret b)⟩)
  | irq {s i c} (h : (s.cpu i).on = true) (hc : P.irq i c) :
      Step P s (some i) { s.goes i ⟨false, .outside c⟩ with parked := s.cpu i :: s.parked }
  | trap {s i on c c'} (h : s.cpu i = ⟨on, .outside c⟩) (hc : P.trap c c') :
      Step P s (some i) { s.goes i ⟨false, .outside c'⟩ with parked := s.cpu i :: s.parked }
  | iret {s i on c l p l'} (h : s.cpu i = ⟨on, .outside c⟩) (hc : P.iret c) (hp : s.parked = l ++ p :: l') :
      Step P s (some i) { s.goes i p with parked := l ++ l' }

variable {P : Code κ γ β σ ε} {s s' : State κ γ β σ ε} {i j : κ} {b : β} {d₀ : σ} {fl : Bool} {p : Running γ β}

@[simp] theorem State.goes_cpu (s : State κ γ β σ ε) (i : κ) (p : Running γ β) :
    (s.goes i p).cpu = Function.update s.cpu i p := rfl

@[simp] theorem State.goes_locked (s : State κ γ β σ ε) (i : κ) (p : Running γ β) :
    (s.goes i p).locked = s.locked := rfl

@[simp] theorem State.goes_data (s : State κ γ β σ ε) (i : κ) (p : Running γ β) :
    (s.goes i p).data = s.data := rfl

@[simp] theorem State.goes_env (s : State κ γ β σ ε) (i : κ) (p : Running γ β) :
    (s.goes i p).env = s.env := rfl

@[simp] theorem State.goes_parked (s : State κ γ β σ ε) (i : κ) (p : Running γ β) :
    (s.goes i p).parked = s.parked := rfl

@[simp] theorem State.goes_ended (s : State κ γ β σ ε) (i : κ) (p : Running γ β) :
    (s.goes i p).ended = s.ended := rfl

/-! ## One context inside -/

def Phase.isOutside : Phase γ β → Prop
  | .outside _ => True
  | _ => False

def Phase.isInside : Phase γ β → Prop
  | .inside _ _ => True
  | _ => False

/-- **What the lock and the interrupt flag promise.** -/
structure Guarded (s : State κ γ β σ ε) : Prop where
  off : ∀ i, (s.cpu i).on = true → (s.cpu i).phase.isOutside
  parked : ∀ p ∈ s.parked, p.phase.isOutside
  locked : s.locked = true ↔ ∃ i, (s.cpu i).phase.isInside
  alone : ∀ i j, (s.cpu i).phase.isInside → (s.cpu j).phase.isInside → i = j

/-- A processor goes on from one place to another, neither inside. -/
theorem Guarded.goes (G : Guarded s) (hi : ¬ (s.cpu i).phase.isInside)
    (hon : p.on = true → p.phase.isOutside) (hp : ¬ p.phase.isInside) : Guarded (s.goes i p) := by
  have hin : ∀ j, ((s.goes i p).cpu j).phase.isInside ↔ (s.cpu j).phase.isInside := by
    intro j
    by_cases hj : j = i
    · subst hj
      simp [hi, hp]
    · simp [hj]
  refine ⟨fun j => ?_, G.parked, ?_, fun j k => ?_⟩
  · by_cases hj : j = i
    · subst hj
      simpa using hon
    · simpa [hj] using G.off j
  · simp only [hin]
    exact G.locked
  · simp only [hin]
    exact G.alone j k

omit [DecidableEq κ] in
/-- The same, and the context that was there is parked or a parked one is
taken. -/
theorem Guarded.parks {q : List (Running γ β)} {e : ε} (G : Guarded s) (hq : ∀ p ∈ q, p.phase.isOutside) :
    Guarded { s with parked := q, env := e } :=
  ⟨G.off, hq, G.locked, G.alone⟩

/-- Where nobody is inside, one may go in. -/
theorem Guarded.locks (G : Guarded s) (hl : s.locked = false) (hp : p.phase.isInside) (hon : p.on = false) :
    Guarded { s.goes i p with locked := true } := by
  have hnone : ∀ j, ¬ (s.cpu j).phase.isInside := by
    intro j hj
    have := G.locked.mpr ⟨j, hj⟩
    rw [hl] at this
    cases this
  have hin : ∀ j, ((s.goes i p).cpu j).phase.isInside ↔ j = i := by
    intro j
    by_cases hj : j = i
    · subst hj
      simp [hp]
    · simp [hj, hnone]
  refine ⟨fun j => ?_, G.parked, ?_, fun j k => ?_⟩
  · by_cases hj : j = i
    · subst hj
      simp [hon]
    · simpa [hj] using G.off j
  · simp only [hin]
    simp
  · simp only [hin]
    rintro rfl rfl
    rfl

/-- The one inside stays inside. -/
theorem Guarded.stays (G : Guarded s) (hi : (s.cpu i).phase.isInside) (hp : p.phase.isInside)
    (hon : p.on = false) (d : σ) : Guarded { s.goes i p with data := d } := by
  have hin : ∀ j, ((s.goes i p).cpu j).phase.isInside ↔ (s.cpu j).phase.isInside := by
    intro j
    by_cases hj : j = i
    · subst hj
      simp [hi, hp]
    · simp [hj]
  refine ⟨fun j => ?_, G.parked, ?_, fun j k => ?_⟩
  · by_cases hj : j = i
    · subst hj
      simp [hon]
    · simpa [hj] using G.off j
  · simp only [hin]
    exact G.locked
  · simp only [hin]
    exact G.alone j k

/-- The one inside goes out. -/
theorem Guarded.unlocks (G : Guarded s) (hi : (s.cpu i).phase.isInside) (hp : ¬ p.phase.isInside)
    (hon : p.on = false) (l : List β) : Guarded { s.goes i p with locked := false, ended := l } := by
  have hnone : ∀ j, ¬ ((s.goes i p).cpu j).phase.isInside := by
    intro j hj
    by_cases hji : j = i
    · subst hji
      simp [hp] at hj
    · simp only [State.goes_cpu, Function.update_of_ne hji] at hj
      exact hji (G.alone j i hj hi)
  refine ⟨fun j => ?_, G.parked, ?_, fun j k hj => absurd hj (hnone j)⟩
  · by_cases hj : j = i
    · subst hj
      simp [hon]
    · simpa [hj] using G.off j
  · exact iff_of_false Bool.false_ne_true fun ⟨j, hj⟩ => hnone j hj

omit [DecidableEq κ] in
/-- A context that is not outside has interrupts off. -/
theorem Guarded.on_eq (G : Guarded s) (h : s.cpu i = p) (hp : ¬ p.phase.isOutside) : p.on = false := by
  by_contra hon
  exact hp (h ▸ G.off i (by rw [h]; simpa using hon))

/-- **Every step keeps the promise.** -/
theorem Guarded.step {a : Option κ} (G : Guarded s) (h : Step P s a s') : Guarded s' := by
  cases h with
  | @out i on c on' c' e' h ho =>
    exact (G.goes (p := ⟨on', .outside c'⟩) (by rw [h]; exact id) (fun _ => trivial) id).parks G.parked
  | world h => exact G.parks G.parked
  | save h hc => exact G.goes (by rw [h]; exact id) (by simp) id
  | @lock i on fl b h hl =>
    have hon : on = false := G.on_eq h id
    exact G.locks (p := ⟨on, .inside fl b⟩) hl trivial hon
  | spin h hl => exact G
  | @body i on fl b b' d' h hb =>
    have hon : on = false := G.on_eq h id
    exact G.stays (p := ⟨on, .inside fl b'⟩) (by rw [h]; trivial) trivial hon _
  | @unlock i on fl b h hb =>
    have hon : on = false := G.on_eq h id
    exact G.unlocks (p := ⟨on, .leaving fl b⟩) (by rw [h]; trivial) id hon _
  | restore h => exact G.goes (by rw [h]; exact id) (fun _ => trivial) id
  | @irq i c h hc =>
    have hout := G.off i h
    refine (G.goes (i := i) (p := ⟨false, .outside c⟩) ?_ (fun _ => trivial) id).parks fun p hp => ?_
    · cases hph : (s.cpu i).phase <;> simp_all [Phase.isOutside, Phase.isInside]
    · rcases List.mem_cons.mp hp with rfl | hp
      · exact hout
      · exact G.parked p hp
  | @trap i on c c' h hc =>
    refine (G.goes (i := i) (p := ⟨false, .outside c'⟩) (by rw [h]; exact id) (fun _ => trivial) id).parks
      fun p hp => ?_
    rcases List.mem_cons.mp hp with rfl | hp
    · rw [h]
      trivial
    · exact G.parked p hp
  | @iret i on c l p l' h hc hp =>
    have hout : ∀ q ∈ l ++ p :: l', q.phase.isOutside := hp ▸ G.parked
    have hp' := hout p (by simp)
    refine (G.goes (i := i) (p := p) (by rw [h]; exact id) (fun _ => hp') ?_).parks fun q hq => ?_
    · cases hph : p.phase <;> simp_all [Phase.isOutside, Phase.isInside]
    · exact hout q (by rw [List.mem_append] at hq ⊢; exact hq.imp_right (List.mem_cons_of_mem p))

/-! ## Sections as single steps -/

/-- Some steps of a section. -/
def Steps (P : Code κ γ β σ ε) : β × σ → β × σ → Prop :=
  Relation.ReflTransGen fun x y => P.body x.1 x.2 = some y

/-- The sections that end as `l`, one after the other, lead from `d₀` to
`d`. -/
inductive Serial (P : Code κ γ β σ ε) (d₀ : σ) : List β → σ → Prop
  | nil : Serial P d₀ [] d₀
  | snoc {l : List β} {d : σ} {c : γ} {b₀ b : β} {d' : σ} (h : Serial P d₀ l d) (hc : P.call c = some b₀)
      (hs : Steps P (b₀, d) (b, d')) (hb : P.body b d' = none) : Serial P d₀ (l ++ [b]) d'

/-- **The sections that are over are serial**, and the one under way has
started from where they lead. -/
structure Ordered (P : Code κ γ β σ ε) (d₀ : σ) (s : State κ γ β σ ε) (d : σ) : Prop where
  serial : Serial P d₀ s.ended d
  free : s.locked = false → s.data = d
  inside : ∀ i fl b, (s.cpu i).phase = .inside fl b →
    ∃ c b₀, P.call c = some b₀ ∧ Steps P (b₀, d) (b, s.data)
  waiting : ∀ i fl b, (s.cpu i).phase = .waiting fl b → ∃ c, P.call c = some b

/-- A processor goes on, neither from inside nor to it. -/
theorem Ordered.goes {d : σ} (O : Ordered P d₀ s d) (hp : ¬ p.phase.isInside)
    (hw : ∀ fl b, p.phase = .waiting fl b → ∃ c, P.call c = some b) (e : ε) (q : List (Running γ β)) :
    Ordered P d₀ { s.goes i p with env := e, parked := q } d := by
  refine ⟨O.serial, O.free, fun j fl b hj => ?_, fun j fl b hj => ?_⟩
  · by_cases hji : j = i
    · subst hji
      simp only [State.goes_cpu, Function.update_self] at hj
      exact absurd (hj ▸ trivial : p.phase.isInside) hp
    · simp only [State.goes_cpu, Function.update_of_ne hji] at hj
      exact O.inside j fl b hj
  · by_cases hji : j = i
    · subst hji
      simp only [State.goes_cpu, Function.update_self] at hj
      exact hw fl b hj
    · simp only [State.goes_cpu, Function.update_of_ne hji] at hj
      exact O.waiting j fl b hj

/-- **Every step keeps the order**; the data of the sections that are over
changes when the lock is let go. -/
theorem Ordered.step {a : Option κ} {d : σ} (G : Guarded s) (O : Ordered P d₀ s d) (h : Step P s a s') :
    ∃ d', Ordered P d₀ s' d' := by
  cases h with
  | out h ho => exact ⟨d, O.goes id (by simp) _ _⟩
  | world h => exact ⟨d, O.serial, O.free, O.inside, O.waiting⟩
  | @save i on c b h hc =>
    refine ⟨d, O.goes id (fun fl b' hb' => ?_) _ _⟩
    cases hb'
    exact ⟨c, hc⟩
  | @lock i on fl b h hl =>
    obtain ⟨c, hc⟩ := O.waiting i fl b (by rw [h])
    refine ⟨d, O.serial, by simp, fun j fl' b' hj => ?_, fun j fl' b' hj => ?_⟩
    · by_cases hji : j = i
      · subst hji
        simp only [State.goes_cpu, Function.update_self] at hj
        cases hj
        refine ⟨c, b, hc, ?_⟩
        show Steps P (b, d) (b, s.data)
        rw [O.free hl]
        exact .refl
      · simp only [State.goes_cpu, Function.update_of_ne hji] at hj
        exact O.inside j fl' b' hj
    · by_cases hji : j = i
      · subst hji
        simp at hj
      · simp only [State.goes_cpu, Function.update_of_ne hji] at hj
        exact O.waiting j fl' b' hj
  | spin h hl => exact ⟨d, O⟩
  | @body i on fl b b' d' h hb =>
    have hin : (s.cpu i).phase.isInside := by
      rw [h]
      trivial
    obtain ⟨c, b₀, hc, hs⟩ := O.inside i fl b (by rw [h])
    refine ⟨d, O.serial, fun hl => ?_, fun j fl' b'' hj => ?_, fun j fl' b'' hj => ?_⟩
    · have hlocked := G.locked.mpr ⟨i, hin⟩
      have hfree : s.locked = false := hl
      rw [hlocked] at hfree
      cases hfree
    · by_cases hji : j = i
      · subst hji
        simp only [State.goes_cpu, Function.update_self] at hj
        cases hj
        exact ⟨c, b₀, hc, hs.tail hb⟩
      · simp only [State.goes_cpu, Function.update_of_ne hji] at hj
        exact absurd (G.alone j i (by rw [hj]; trivial) hin) hji
    · by_cases hji : j = i
      · subst hji
        simp at hj
      · simp only [State.goes_cpu, Function.update_of_ne hji] at hj
        exact O.waiting j fl' b'' hj
  | @unlock i on fl b h hb =>
    have hin : (s.cpu i).phase.isInside := by
      rw [h]
      trivial
    obtain ⟨c, b₀, hc, hs⟩ := O.inside i fl b (by rw [h])
    refine ⟨s.data, O.serial.snoc hc hs hb, fun _ => rfl, fun j fl' b'' hj => ?_, fun j fl' b'' hj => ?_⟩
    · by_cases hji : j = i
      · subst hji
        simp at hj
      · simp only [State.goes_cpu, Function.update_of_ne hji] at hj
        exact absurd (G.alone j i (by rw [hj]; trivial) hin) hji
    · by_cases hji : j = i
      · subst hji
        simp at hj
      · simp only [State.goes_cpu, Function.update_of_ne hji] at hj
        exact O.waiting j fl' b'' hj
  | restore h => exact ⟨d, O.goes id (by simp) _ _⟩
  | irq h hc => exact ⟨d, O.goes id (by simp) _ _⟩
  | trap h hc => exact ⟨d, O.goes id (by simp) _ _⟩
  | @iret i on c l p l' h hc hp =>
    have hout : p.phase.isOutside := G.parked p (by rw [hp]; simp)
    refine ⟨d, O.goes ?_ (fun fl b hph => ?_) _ _⟩
    · cases hph : p.phase <;> simp_all [Phase.isOutside, Phase.isInside]
    · rw [hph] at hout
      exact hout.elim

/-! ## Runs -/

/-- All contexts are outside at first, and the lock is free. -/
structure Start (d₀ : σ) (s : State κ γ β σ ε) : Prop where
  locked : s.locked = false
  data : s.data = d₀
  cpu : ∀ i, (s.cpu i).phase.isOutside
  parked : ∀ p ∈ s.parked, p.phase.isOutside
  ended : s.ended = []

/-- The contexts of `P`, which start from the data `d₀` in a state that meets
`I`. -/
def contexts (P : Code κ γ β σ ε) (d₀ : σ) (I : State κ γ β σ ε → Prop) : System (State κ γ β σ ε) (Option κ) where
  init s := Start d₀ s ∧ I s
  step := Step P

variable {I : State κ γ β σ ε → Prop}

omit [DecidableEq κ] in
theorem Start.not_inside (h : Start d₀ s) (i : κ) : ¬ (s.cpu i).phase.isInside := by
  have := h.cpu i
  cases hph : (s.cpu i).phase <;> simp_all [Phase.isOutside, Phase.isInside]

theorem guarded_of_reachable (h : (contexts P d₀ I).Reachable s) : Guarded s := by
  refine h.invariant (fun s h => ?_) fun s a s' _ G hs => G.step hs
  refine ⟨fun i _ => h.1.cpu i, h.1.parked, ?_, fun i _ hi => absurd hi (h.1.not_inside i)⟩
  simp [h.1.locked, h.1.not_inside]

/-- **Sections are serial.** -/
theorem serial_of_reachable (h : (contexts P d₀ I).Reachable s) : ∃ d, Ordered P d₀ s d := by
  refine h.invariant (P := fun s => ∃ d, Ordered P d₀ s d) (fun s h => ?_) fun s a s' hr hO hs => ?_
  · refine ⟨d₀, ?_, fun _ => h.1.data, fun i fl b hi => ?_, fun i fl b hi => ?_⟩
    · rw [h.1.ended]
      exact .nil
    · exact absurd (by rw [hi]; trivial) (h.1.not_inside i)
    · have := h.1.cpu i
      rw [hi] at this
      exact this.elim
  · obtain ⟨d, O⟩ := hO
    exact O.step (guarded_of_reachable hr) hs

/-- **A context that waits can take the lock, or it waits for another
processor.** -/
theorem waits_for_other (h : (contexts P d₀ I).Reachable s) {on : Bool}
    (hi : s.cpu i = ⟨on, .waiting fl b⟩) :
    s.locked = false ∨ ∃ j fl' b', j ≠ i ∧ s.cpu j = ⟨false, .inside fl' b'⟩ := by
  cases hl : s.locked with
  | false => exact .inl rfl
  | true =>
    right
    obtain ⟨j, hj⟩ := (guarded_of_reachable h).locked.mp hl
    rcases hp : s.cpu j with ⟨on', ph⟩
    rw [hp] at hj
    cases ph with
    | inside fl' b' =>
      have hon : on' = false := (guarded_of_reachable h).on_eq hp id
      subst hon
      refine ⟨j, fl', b', ?_, hp⟩
      rintro rfl
      rw [hp] at hi
      cases hi
    | outside c => exact hj.elim
    | waiting fl' b' => exact hj.elim
    | leaving fl' b' => exact hj.elim

/-- Steps of one processor. -/
def Alone (P : Code κ γ β σ ε) (j : κ) : State κ γ β σ ε → State κ γ β σ ε → Prop :=
  Relation.ReflTransGen fun s s' => Step P s (some j) s'

/-- **Who is inside gets out**, if the steps of a section make `m` smaller. -/
theorem gets_out {m : β → σ → ℕ} (hm : ∀ b d b' d', P.body b d = some (b', d') → m b' d' < m b d) :
    ∀ n b (s : State κ γ β σ ε), m b s.data ≤ n → s.cpu j = ⟨false, .inside fl b⟩ →
      ∃ s', Alone P j s s' ∧ s'.locked = false ∧ ∀ i ≠ j, s'.cpu i = s.cpu i := by
  intro n
  induction n with
  | zero =>
    intro b s hn hj
    have hend : P.body b s.data = none := by
      rcases hb : P.body b s.data with _ | ⟨b', d'⟩
      · rfl
      · exact absurd (hm _ _ _ _ hb) (by omega)
    exact ⟨_, .single (.unlock hj hend), rfl, fun i hi => by simp [hi]⟩
  | succ n ih =>
    intro b s hn hj
    rcases hb : P.body b s.data with _ | ⟨b', d'⟩
    · exact ⟨_, .single (.unlock hj hb), rfl, fun i hi => by simp [hi]⟩
    · have hlt := hm _ _ _ _ hb
      obtain ⟨s', hs', hl, hcpu⟩ := ih b' { s.goes j ⟨false, .inside fl b'⟩ with data := d' }
        (show m b' d' ≤ n by omega) (by simp)
      refine ⟨s', .head (.body hj hb) hs', hl, fun i hi => ?_⟩
      rw [hcpu i hi]
      simp [hi]

end Sections

end Csos
