import Csos.Kbd.Model
/-!
# The keyboard — a queue

However the interrupts and the reads of any number of processors interleave,
the ring is a queue of 256 bytes (`kbd_fifo`): the characters of the keys come
in the order of the keys, one that finds the queue full is dropped, and each
read takes from the front.

A read or a handler is a section (`Reads`, `Puts`), and sections are serial.
There is one handler of the keyboard at a time, with interrupts off (`Serves`),
which is why no two characters change places between the 8042 and the ring.
-/

namespace Csos

namespace Kbd

open Rings Sections

variable {κ : Type*} [DecidableEq κ] {bsp i : κ} {s s' : St κ} {p : Running Ctx Sec} {len : ℕ}
  {ch : UInt8} {d d' : Cells UInt8} {b b' : Sec} {l : List Sec}

/-! ## Sections -/

/-- The section of a read, from the start `d`. -/
inductive Reads (d : Cells UInt8) (len : ℕ) : Sec → Cells UInt8 → Prop
  | test {r : Cells UInt8} (out : List UInt8) (h : r.Wf kbdBufSize) (hout : out.length ≤ len)
      (hd : d.toList kbdBufSize = out ++ r.toList kbdBufSize) : Reads d len (.test len out) r
  | load {r : Cells UInt8} (out : List UInt8) (h : r.Wf kbdBufSize) (hout : out.length < len) (hne : 0 < r.count)
      (hd : d.toList kbdBufSize = out ++ r.toList kbdBufSize) : Reads d len (.load len out) r
  | advance {r : Cells UInt8} (out : List UInt8) (h : r.Wf kbdBufSize) (hout : out.length < len) (hne : 0 < r.count)
      (hd : d.toList kbdBufSize = out ++ r.toList kbdBufSize) : Reads d len (.advance len (out ++ [r.cells r.head])) r
  | discount {r : Cells UInt8} (out : List UInt8) (h : r.Wf kbdBufSize) (hout : out.length < len) (hne : 0 < r.count)
      (hd : d.toList kbdBufSize = out ++ r.toList kbdBufSize) :
      Reads d len (.discount len (out ++ [r.cells r.head])) { r with head := (r.head + 1) % kbdBufSize }

/-- The section of the handler, from the start `d`. -/
inductive Puts (d : Cells UInt8) (ch : UInt8) : Sec → Cells UInt8 → Prop
  | room (h : d.Wf kbdBufSize) : Puts d ch (.room ch) d
  | store (h : d.Wf kbdBufSize) (hroom : d.count < kbdBufSize) : Puts d ch (.store ch) d
  | bump (h : d.Wf kbdBufSize) (hroom : d.count < kbdBufSize) :
      Puts d ch (.bump ch) { d with cells := Function.update d.cells d.tail ch }
  | raise (h : d.Wf kbdBufSize) (hroom : d.count < kbdBufSize) : Puts d ch (.raise ch)
      { d with cells := Function.update d.cells d.tail ch, tail := (d.tail + 1) % kbdBufSize }
  | kept (h : d.Wf kbdBufSize) (hroom : d.count < kbdBufSize) : Puts d ch (.done ch true) (d.push kbdBufSize ch)
  | dropped (h : d.Wf kbdBufSize) (hfull : kbdBufSize ≤ d.count) : Puts d ch (.done ch false) d

theorem Reads.step {d r r' : Cells UInt8} {len : ℕ} {b b' : Sec} (h : Reads d len b r)
    (hb : body b r = some (b', r')) : Reads d len b' r' := by
  cases h with
  | test out h hout hd =>
    rw [body] at hb
    split_ifs at hb with hc
    cases hb
    exact .load out h hc.1 hc.2 hd
  | load out h hout hne hd =>
    cases hb
    exact .advance out h hout hne hd
  | advance out h hout hne hd =>
    cases hb
    exact .discount out h hout hne hd
  | @discount r out h hout hne hd =>
    cases hb
    refine .test _ (h.pop hne) ?_ ?_
    · rw [List.length_append, List.length_singleton]
      omega
    · have hpop := toList_pop (n := kbdBufSize) (r := r) hne
      rw [Nat.mod_eq_of_lt h.head] at hpop
      rw [hd, hpop, List.append_assoc]
      rfl

theorem Puts.step {d r r' : Cells UInt8} {ch : UInt8} {b b' : Sec} (h : Puts d ch b r)
    (hb : body b r = some (b', r')) : Puts d ch b' r' := by
  cases h with
  | room h =>
    rw [body] at hb
    cases hb
    by_cases hroom : d.count < kbdBufSize
    · rw [if_pos hroom]
      exact .store h hroom
    · rw [if_neg hroom]
      exact .dropped h (by omega)
  | store h hroom =>
    cases hb
    exact .bump h hroom
  | bump h hroom =>
    cases hb
    exact .raise h hroom
  | raise h hroom =>
    cases hb
    exact .kept h hroom
  | kept h hroom => cases hb
  | dropped h hfull => cases hb

omit [DecidableEq κ] in
theorem Reads.steps {r : Cells UInt8} (h : Steps (code bsp) (.test len [], d) (b, r)) (hd : d.Wf kbdBufSize) :
    Reads d len b r := by
  have hall : ∀ y, Steps (code bsp) (.test len [], d) y → Reads d len y.1 y.2 := by
    intro y hy
    induction hy with
    | refl => exact .test [] hd (Nat.zero_le len) rfl
    | tail _ hb ih => exact ih.step hb
  exact hall _ h

omit [DecidableEq κ] in
theorem Puts.steps {r : Cells UInt8} (h : Steps (code bsp) (.room ch, d) (b, r)) (hd : d.Wf kbdBufSize) :
    Puts d ch b r := by
  have hall : ∀ y, Steps (code bsp) (.room ch, d) y → Puts d ch y.1 y.2 := by
    intro y hy
    induction hy with
    | refl => exact .room hd
    | tail _ hb ih => exact ih.step hb
  exact hall _ h

/-- A read that is over has taken from the front. -/
theorem Reads.over {r : Cells UInt8} (h : Reads d len b r) (hb : body b r = none) :
    r.Wf kbdBufSize ∧ b.op = .pop len ((d.toList kbdBufSize).take len) ∧
      r.toList kbdBufSize = (d.toList kbdBufSize).drop len := by
  cases h with
  | test out h hout hd =>
    have hend : len ≤ out.length ∨ r.count = 0 := by
      by_contra hc
      rw [not_or] at hc
      rw [body, if_pos (by omega)] at hb
      cases hb
    have hlen : len ≤ out.length ∨ r.toList kbdBufSize = [] :=
      hend.imp_right fun h0 => List.length_eq_zero_iff.mp (by rw [length_toList, h0])
    rcases hlen with hlen | hnil
    · have he : out.length = len := by omega
      subst he
      refine ⟨h, ?_, ?_⟩
      · rw [hd, List.take_left]
        rfl
      · rw [hd, List.drop_left]
    · rw [hnil, List.append_nil] at hd
      refine ⟨h, ?_, ?_⟩
      · rw [hd, List.take_of_length_le hout]
        rfl
      · rw [hd, hnil, List.drop_eq_nil_of_le hout]
  | load out h hout hne hd => cases hb
  | advance out h hout hne hd => cases hb
  | discount out h hout hne hd => cases hb

/-- A handler that is over has put its character at the end, or the ring was
full. -/
theorem Puts.over {r : Cells UInt8} (h : Puts d ch b r) (hb : body b r = none) : r.Wf kbdBufSize ∧
    (b.op = .push ch true ∧ d.count < kbdBufSize ∧ r.toList kbdBufSize = d.toList kbdBufSize ++ [ch] ∨
      b.op = .push ch false ∧ kbdBufSize ≤ d.count ∧ r = d) := by
  cases h with
  | room h => cases hb
  | store h hroom => cases hb
  | bump h hroom => cases hb
  | raise h hroom => cases hb
  | kept h hroom => exact ⟨h.push hroom, .inl ⟨rfl, hroom, h.toList_push hroom⟩⟩
  | dropped h hfull => exact ⟨h, .inr ⟨rfl, hfull, rfl⟩⟩

theorem call_eq_some {c : Ctx} (h : call c = some b) :
    (∃ len, c = .read len ∧ b = .test len []) ∨ ∃ ch, c = .put ch ∧ b = .room ch := by
  cases c with
  | read len =>
    cases h
    exact .inl ⟨len, rfl, rfl⟩
  | put ch =>
    cases h
    exact .inr ⟨ch, rfl, rfl⟩
  | _ => cases h

omit [DecidableEq κ] in
/-- **Sections one after the other are a queue.** -/
theorem fifo_of_serial (h : Serial (code bsp) emptyRing l d) :
    d.Wf kbdBufSize ∧ Fifo kbdBufSize (l.map Sec.op) (d.toList kbdBufSize) := by
  induction h with
  | nil => exact ⟨⟨by decide, by decide, by decide⟩, .nil⟩
  | @snoc l d c b₀ b d' h hc hs hb ih =>
    obtain ⟨hwf, hq⟩ := ih
    rw [List.map_append, List.map_singleton]
    rcases call_eq_some hc with ⟨len, rfl, rfl⟩ | ⟨ch, rfl, rfl⟩
    · obtain ⟨hwf', hop, hlist⟩ := (Reads.steps hs hwf).over hb
      rw [hop, hlist]
      exact ⟨hwf', hq.pop len⟩
    · obtain ⟨hwf', ⟨hop, hroom, hlist⟩ | ⟨hop, hfull, rfl⟩⟩ := (Puts.steps hs hwf).over hb
      · rw [hop, hlist]
        exact ⟨hwf', hq.keep (by rwa [length_toList])⟩
      · rw [hop]
        exact ⟨hwf', hq.drop (by rwa [length_toList])⟩

/-! ## The handler -/

def Ctx.handles : Ctx → Prop
  | .status | .data | .decoded _ | .put _ | .echo _ | .eoi | .iret => True
  | _ => False

/-- The character that a section puts in the ring, if it is the handler's. -/
def Sec.char : Sec → List UInt8
  | .room ch | .store ch | .bump ch | .raise ch | .done ch _ => [ch]
  | _ => []

/-- The context is the handler of the keyboard's interrupt. -/
def handles (p : Running Ctx Sec) : Prop :=
  match p.phase with
  | .outside c => c.handles
  | .waiting _ b | .inside _ b | .leaving _ b => b.char ≠ []

/-- Interrupts are off, and are to stay off. -/
def masked (p : Running Ctx Sec) : Prop :=
  p.on = false ∧ match p.phase with
    | .outside _ => True
    | .waiting fl _ | .inside fl _ | .leaving fl _ => fl = false

/-- The character that is on the way to the ring. -/
def coming (p : Running Ctx Sec) : List UInt8 :=
  match p.phase with
  | .outside (.decoded sc) => (decode sc).toList
  | .outside (.put ch) => [ch]
  | .waiting _ b | .inside _ b => b.char
  | _ => []

/-- The character that is on the way to the console. -/
def echoing (p : Running Ctx Sec) : List UInt8 :=
  match p.phase with
  | .outside (.echo ch) => [ch]
  | .leaving _ b => b.char
  | _ => []

/-- The characters that the handlers that are over have brought. -/
def brought (l : List Sec) : List UInt8 := l.flatMap Sec.char

/-- **One handler at a time**, which brings the characters of the keys in
their order. -/
structure Serves (bsp : κ) (e : Env) (cpu : κ → Running Ctx Sec) (parked : List (Running Ctx Sec))
    (ended : List Sec) : Prop where
  here : ∀ i, handles (cpu i) → i = bsp ∧ masked (cpu i)
  parked : ∀ p ∈ parked, ¬ handles p
  taken : e.taken ≤ e.sent.length
  full : (cpu bsp).phase = .outside .data → e.taken < e.sent.length
  chars : brought ended ++ coming (cpu bsp) = (e.sent.take e.taken).filterMap decode
  text : e.text ++ echoing (cpu bsp) = brought ended

variable {e e' : Env} {cpu : κ → Running Ctx Sec} {parked q : List (Running Ctx Sec)} {ended : List Sec}

/-- What a section puts does not change on the way. -/
theorem body_char {r r' : Cells UInt8} (h : body b r = some (b', r')) : b'.char = b.char := by
  cases b with
  | test len out =>
    rw [body] at h
    split_ifs at h
    cases h
    rfl
  | room ch =>
    cases h
    rw [Sec.char]
    split_ifs <;> rfl
  | done ch kept => cases h
  | _ =>
    cases h
    rfl

/-- A processor goes on elsewhere, with nothing new on the way. -/
theorem Serves.goes (S : Serves bsp e cpu parked ended) (hh : handles p → i = bsp ∧ masked p)
    (hc : i = bsp → coming p = coming (cpu i)) (he : i = bsp → echoing p = echoing (cpu i))
    (hf : i = bsp → p.phase = .outside .data → e.taken < e.sent.length) (hq : ∀ p ∈ q, ¬ handles p) :
    Serves bsp e (Function.update cpu i p) q ended := by
  have hhere : ∀ j, handles (Function.update cpu i p j) → j = bsp ∧ masked (Function.update cpu i p j) := by
    intro j hj
    by_cases hji : j = i
    · subst hji
      rw [Function.update_self] at hj ⊢
      exact hh hj
    · rw [Function.update_of_ne hji] at hj ⊢
      exact S.here j hj
  by_cases hi : bsp = i
  · subst hi
    refine ⟨hhere, hq, S.taken, ?_, ?_, ?_⟩ <;> rw [Function.update_self]
    · exact hf rfl
    · rw [hc rfl]
      exact S.chars
    · rw [he rfl]
      exact S.text
  · refine ⟨hhere, hq, S.taken, ?_, ?_, ?_⟩ <;> rw [Function.update_of_ne hi]
    · exact S.full
    · exact S.chars
    · exact S.text

/-- What is not the handler has nothing on the way. -/
theorem idle_of_not_handles (h : ¬ handles p) :
    coming p = [] ∧ echoing p = [] ∧ p.phase ≠ .outside .data := by
  rcases p with ⟨on, ph⟩
  cases ph with
  | outside c => cases c <;> simp_all [handles, coming, echoing, Ctx.handles]
  | waiting fl b => simp_all [handles, coming, echoing]
  | inside fl b => simp_all [handles, coming, echoing]
  | leaving fl b => simp_all [handles, coming, echoing]

/-- A context that is not the handler goes on as another. -/
theorem Serves.idle (S : Serves bsp e cpu parked ended) (h : ¬ handles (cpu i)) (hp : ¬ handles p)
    (hq : ∀ p ∈ q, ¬ handles p) : Serves bsp e (Function.update cpu i p) q ended := by
  obtain ⟨hc, he, hd⟩ := idle_of_not_handles hp
  obtain ⟨hc', he', -⟩ := idle_of_not_handles h
  exact S.goes (fun hh => absurd hh hp) (fun _ => hc.trans hc'.symm) (fun _ => he.trans he'.symm)
    (fun _ hf => absurd hf hd) hq

/-- The handler goes on with what it is about. -/
theorem Serves.handler (S : Serves bsp e cpu parked ended) (h : handles (cpu i))
    (hm : masked (cpu i) → masked p) (hc : coming p = coming (cpu i)) (he : echoing p = echoing (cpu i))
    (hf : p.phase = .outside .data → e.taken < e.sent.length) :
    Serves bsp e (Function.update cpu i p) parked ended :=
  S.goes (fun _ => ⟨(S.here i h).1, hm (S.here i h).2⟩) (fun _ => hc) (fun _ => he) (fun _ => hf) S.parked

omit [DecidableEq κ] in
/-- The world moves on, and nothing is on the way to or from it. -/
theorem Serves.env (S : Serves bsp e cpu parked ended) (ht : e'.taken ≤ e'.sent.length)
    (hf : e.taken < e.sent.length → e'.taken < e'.sent.length)
    (hc : e'.sent.take e'.taken = e.sent.take e.taken) (htext : e'.text = e.text) :
    Serves bsp e' cpu parked ended :=
  ⟨S.here, S.parked, ht, fun h => hf (S.full h), hc ▸ S.chars, htext ▸ S.text⟩

theorem Serves.out {on on' : Bool} {c c' : Ctx} (S : Serves bsp e cpu parked ended)
    (h : cpu i = ⟨on, .outside c⟩) (ho : Out i on c e on' c' e') :
    Serves bsp e' (Function.update cpu i ⟨on', .outside c'⟩) parked ended := by
  have hbsp : c.handles → i = bsp := fun hc => (S.here i (by rw [h]; exact hc)).1
  have hon (hc : c.handles) : on = false := by
    have := (S.here i (by rw [h]; exact hc)).2.1
    rwa [h] at this
  cases ho with
  | task => exact S.idle (by rw [h]; exact id) id S.parked
  | other => exact S.idle (by rw [h]; exact id) id S.parked
  | read => exact S.idle (by rw [h]; exact id) id S.parked
  | readNone => exact S.idle (by rw [h]; exact id) id S.parked
  | answer => exact S.idle (by rw [h]; exact id) id S.parked
  | empty =>
    refine S.handler (by rw [h]; trivial) (fun _ => ⟨hon trivial, trivial⟩) ?_ ?_ (by simp) <;>
      rw [h] <;> rfl
  | full _ hlt =>
    refine S.handler (by rw [h]; trivial) (fun _ => ⟨hon trivial, trivial⟩) ?_ ?_ (fun _ => hlt) <;>
      rw [h] <;> rfl
  | @data _ sc hsc =>
    have hi := hbsp trivial
    subst hi
    have hlt : e.taken < e.sent.length := (List.getElem?_eq_some_iff.mp hsc).1
    have hchars := S.chars
    have htext := S.text
    rw [h] at hchars htext
    refine ⟨fun j hj => ?_, S.parked, hlt, ?_, ?_, ?_⟩
    · by_cases hji : j = i
      · subst hji
        rw [Function.update_self]
        exact ⟨rfl, hon trivial, trivial⟩
      · rw [Function.update_of_ne hji] at hj ⊢
        exact S.here j hj
    · simp
    · rw [Function.update_self, List.take_add_one, hsc, List.filterMap_append, ← hchars]
      cases hd : decode sc <;> simp [coming, hd]
    · rw [Function.update_self]
      exact htext
  | stale _ _ hle => exact absurd (S.full (by rw [← hbsp trivial, h])) (not_lt.mpr hle)
  | ignore _ hsc =>
    refine S.handler (by rw [h]; trivial) (fun _ => ⟨hon trivial, trivial⟩) ?_ ?_ (by simp) <;>
      rw [h] <;> simp [coming, echoing, hsc]
  | decode _ hsc =>
    refine S.handler (by rw [h]; trivial) (fun _ => ⟨hon trivial, trivial⟩) ?_ ?_ (by simp) <;>
      rw [h] <;> simp [coming, echoing, hsc]
  | echo =>
    have hi := hbsp trivial
    subst hi
    have hchars := S.chars
    have htext := S.text
    rw [h] at hchars htext
    refine ⟨fun j hj => ?_, S.parked, S.taken, ?_, ?_, ?_⟩
    · by_cases hji : j = i
      · subst hji
        rw [Function.update_self]
        exact ⟨rfl, hon trivial, trivial⟩
      · rw [Function.update_of_ne hji] at hj ⊢
        exact S.here j hj
    · simp
    · rw [Function.update_self]
      exact hchars
    · rw [Function.update_self, ← htext]
      simp [echoing]
  | eoi =>
    refine S.handler (by rw [h]; trivial) (fun _ => ⟨hon trivial, trivial⟩) ?_ ?_ (by simp) <;>
      rw [h] <;> rfl

theorem ret_spec (b : Sec) : (∃ ch, b.char = [ch] ∧ ret b = .echo ch) ∨ b.char = [] ∧ ¬ (ret b).handles := by
  cases b with
  | test len out => exact .inr ⟨rfl, id⟩
  | load len out => exact .inr ⟨rfl, id⟩
  | advance len out => exact .inr ⟨rfl, id⟩
  | discount len out => exact .inr ⟨rfl, id⟩
  | room ch => exact .inl ⟨ch, rfl, rfl⟩
  | store ch => exact .inl ⟨ch, rfl, rfl⟩
  | bump ch => exact .inl ⟨ch, rfl, rfl⟩
  | raise ch => exact .inl ⟨ch, rfl, rfl⟩
  | done ch kept => exact .inl ⟨ch, rfl, rfl⟩

/-! ## Runs -/

/-- **Every step serves the keyboard.** -/
theorem Serves.step {a : Option κ} (S : Serves bsp s.env s.cpu s.parked s.ended) (h : Step (code bsp) s a s') :
    Serves bsp s'.env s'.cpu s'.parked s'.ended := by
  cases h with
  | out h ho => exact S.out h ho
  | world h =>
    cases h with
    | key sc =>
      refine S.env ?_ ?_ ?_ rfl
      · simp only [List.length_append]
        have := S.taken
        omega
      · simp only [List.length_append]
        omega
      · show (s.env.sent ++ [sc]).take s.env.taken = s.env.sent.take s.env.taken
        rw [List.take_append_of_le_length S.taken]
  | @save i on c b h hc =>
    rcases call_eq_some hc with ⟨len, rfl, rfl⟩ | ⟨ch, rfl, rfl⟩
    · exact S.idle (by rw [h]; exact id) (fun hne => hne rfl) S.parked
    · have hon : on = false := by simpa [h] using (S.here i (by rw [h]; trivial)).2.1
      refine S.handler (by rw [h]; trivial) (fun _ => ⟨rfl, hon⟩) ?_ ?_ (by simp) <;>
        rw [h] <;> rfl
  | @lock i on fl b h hl =>
    refine S.goes (fun hh => ?_) (fun _ => ?_) (fun _ => ?_) (by simp) S.parked
    · have := S.here i (by rw [h]; exact hh)
      rw [h] at this
      exact this
    all_goals
      rw [h]
      rfl
  | spin h hl => exact S
  | @body i on fl b b' d' h hb =>
    have hch := body_char hb
    refine S.goes (fun hh => ?_) (fun _ => ?_) (fun _ => ?_) (by simp) S.parked
    · have := S.here i (by rw [h]; exact (hch ▸ hh : b.char ≠ []))
      rw [h] at this
      exact this
    · rw [h]
      exact hch
    · rw [h]
      rfl
  | @unlock i on fl b h hb =>
    have hsnoc : brought (s.ended ++ [b]) = brought s.ended ++ b.char := by simp [brought]
    have hhere := S.here i
    rw [h] at hhere
    by_cases hb : b.char = []
    · have S' := S.idle (i := i) (p := ⟨on, .leaving fl b⟩) (by rw [h]; exact fun hne => hne hb)
        (fun hne => hne hb) S.parked
      refine ⟨S'.here, S'.parked, S'.taken, S'.full, ?_, ?_⟩
      · rw [hsnoc, hb, List.append_nil]
        exact S'.chars
      · rw [hsnoc, hb, List.append_nil]
        exact S'.text
    · obtain ⟨rfl, hm⟩ := hhere hb
      have hchars := S.chars
      have htext := S.text
      rw [h] at hchars htext
      refine ⟨fun j hj => ?_, S.parked, S.taken, ?_, ?_, ?_⟩
      · by_cases hji : j = i
        · subst hji
          refine ⟨rfl, ?_⟩
          simp only [State.goes_cpu, Function.update_self]
          exact hm
        · simp only [State.goes_cpu, Function.update_of_ne hji] at hj ⊢
          exact S.here j hj
      · simp
      · simp only [State.goes_cpu, Function.update_self]
        rw [hsnoc]
        exact (List.append_nil _).trans hchars
      · simp only [State.goes_cpu, Function.update_self]
        have htext' : s.env.text = brought s.ended := by simpa [echoing] using htext
        rw [hsnoc, ← htext']
        rfl
  | @restore i on fl b h =>
    rcases ret_spec b with ⟨ch, hch, hret⟩ | ⟨hch, hret⟩
    · have hne : b.char ≠ [] := by
        rw [hch]
        simp
      have hm := S.here i (by rw [h]; exact hne)
      rw [h] at hm
      have hfl : fl = false := hm.2.2
      refine S.goes (fun _ => ⟨hm.1, hfl, ?_⟩) (fun _ => ?_) (fun _ => ?_) ?_ S.parked
      · show match (Phase.outside (ret b) : Phase Ctx Sec) with
          | .outside _ => True
          | .waiting fl _ | .inside fl _ | .leaving fl _ => fl = false
        trivial
      · rw [h]
        show coming ⟨fl, .outside (ret b)⟩ = _
        rw [hret]
        rfl
      · rw [h]
        show echoing ⟨fl, .outside (ret b)⟩ = b.char
        rw [hret, hch]
        rfl
      · show i = bsp → Phase.outside (ret b) = .outside .data → _
        rw [hret]
        simp
    · exact S.idle (by rw [h]; exact fun hne => hne hch) hret S.parked
  | @irq i c h hc =>
    have hno : ¬ handles (s.cpu i) := fun hh => by
      have := (S.here i hh).2.1
      rw [h] at this
      cases this
    have hq : ∀ p ∈ s.cpu i :: s.parked, ¬ handles p := by
      intro p hp
      rcases List.mem_cons.mp hp with rfl | hp
      · exact hno
      · exact S.parked p hp
    rcases hc with rfl | ⟨rfl, rfl⟩
    · exact S.idle hno id hq
    · obtain ⟨hc, he, -⟩ := idle_of_not_handles hno
      exact S.goes (fun _ => ⟨rfl, rfl, trivial⟩) (fun _ => hc.symm) (fun _ => he.symm) (by simp) hq
  | @trap i on c c' h hc =>
    obtain ⟨rfl, rfl⟩ := hc
    have hno : ¬ handles (s.cpu i) := by
      rw [h]
      exact id
    refine S.idle hno id fun p hp => ?_
    rcases List.mem_cons.mp hp with rfl | hp
    · exact hno
    · exact S.parked p hp
  | @iret i on c l p l' h hc hp =>
    have hall : ∀ q ∈ l ++ p :: l', ¬ handles q := hp ▸ S.parked
    have hno := hall p (by simp)
    have hq : ∀ q ∈ l ++ l', ¬ handles q := fun q hq =>
      hall q (by rw [List.mem_append] at hq ⊢; exact hq.imp_right (List.mem_cons_of_mem p))
    obtain ⟨hcp, hep, hdp⟩ := idle_of_not_handles hno
    refine S.goes (fun hh => absurd hh hno) (fun _ => ?_) (fun _ => ?_) (fun _ hd => absurd hd hdp) hq
    · rw [hcp, h]
      rcases hc with rfl | rfl <;> rfl
    · rw [hep, h]
      rcases hc with rfl | rfl <;> rfl

/-- **The keyboard is a queue.** At every point of every run, the ring holds
what a queue of 256 bytes holds after the sections that are over, in the order
they let the lock go. Those of the handler brought the characters of the keys
that have been taken, in the order of the keys, all but the one that is on its
way; the console got the same characters. -/
theorem kbd_fifo (h : (kernel bsp).Reachable s) : ∃ q, Fifo kbdBufSize (s.ended.map Sec.op) q ∧
    (s.locked = false → s.data.toList kbdBufSize = q) ∧
    (s.ended.map Sec.op).flatMap Op.kept = (s.ended.map Sec.op).flatMap Op.given ++ q ∧
    brought s.ended ++ coming (s.cpu bsp) = (s.env.sent.take s.env.taken).filterMap decode ∧
    s.env.text ++ echoing (s.cpu bsp) = brought s.ended := by
  have S : Serves bsp s.env s.cpu s.parked s.ended := by
    refine h.invariant (P := fun s => Serves bsp s.env s.cpu s.parked s.ended) (fun s h => ?_)
      fun s a s' _ S hs => S.step hs
    have hno : ∀ p : Running Ctx Sec, p.phase = .outside .task ∨ p.phase = .outside .other → ¬ handles p := by
      rintro p (hp | hp) <;> rw [handles, hp] <;> exact id
    obtain ⟨hc, he, hd⟩ := idle_of_not_handles (hno _ (h.2.cpu bsp))
    refine ⟨fun i hi => absurd hi (hno _ (h.2.cpu i)), fun p hp => hno _ (h.2.parked p hp), ?_,
      fun hf => absurd hf hd, ?_, ?_⟩
    · rw [h.2.taken]
      exact Nat.zero_le _
    · rw [hc, h.1.ended, h.2.taken]
      rfl
    · rw [he, h.1.ended, h.2.text]
      rfl
  obtain ⟨d, O⟩ := serial_of_reachable h
  obtain ⟨-, hq⟩ := fifo_of_serial O.serial
  exact ⟨_, hq, fun hl => by rw [O.free hl], hq.kept_eq, S.chars, S.text⟩

/-- Two processors that run tasks, with interrupts on. -/
def boot : St (Fin 2) := ⟨false, emptyRing, ⟨[], 0, []⟩, fun _ => ⟨true, .outside .task⟩, [], []⟩

theorem boot_reachable : (kernel (0 : Fin 2)).Reachable boot :=
  .init ⟨⟨rfl, rfl, fun _ => trivial, by simp [boot], rfl⟩, rfl, rfl, fun _ => .inl rfl, by simp [boot]⟩

/-- The key `a` is put in the ring, and is what `kbd0` has to give. -/
theorem kbd_fifo_key : ∃ s : St (Fin 2), s.env.sent = [0x1E] ∧ s.locked = false ∧
    s.data.toList kbdBufSize = [0x61] ∧ ∃ q, Fifo kbdBufSize (s.ended.map Sec.op) q ∧
      (s.locked = false → s.data.toList kbdBufSize = q) := by
  have h₁ := boot_reachable.step (.world (.key _ 0x1E))
  have h₂ := h₁.step (.irq (i := 0) (c := .status) rfl (.inr ⟨rfl, rfl⟩))
  have h₃ := h₂.step (.out (i := 0) rfl (.full _ _ _ (by decide)))
  have h₄ := h₃.step (.out (i := 0) rfl (.data _ _ _ rfl))
  have h₅ := h₄.step (.out (i := 0) rfl (.decode _ _ _ (show decode 0x1E = some 0x61 by decide)))
  have h₆ := (h₅.step (.save (i := 0) rfl rfl)).step (.lock (i := 0) rfl rfl)
  have h₇ := (h₆.step (.body (i := 0) rfl rfl)).step (.body (i := 0) rfl rfl)
  have h₈ := (h₇.step (.body (i := 0) rfl rfl)).step (.body (i := 0) rfl rfl)
  have h₉ := h₈.step (.unlock (i := 0) rfl rfl)
  obtain ⟨q, hq, hl, -⟩ := kbd_fifo h₉
  exact ⟨_, rfl, rfl, rfl, q, hq, hl⟩

/-! ## The lock -/

/-- What is left of a section. -/
def Sec.left : Sec → ℕ
  | .test len out => 5 * (len - out.length) + 1
  | .load len out => 5 * (len - out.length - 1) + 4
  | .advance len out => 5 * (len - out.length) + 3
  | .discount len out => 5 * (len - out.length) + 2
  | .room _ => 4
  | .store _ => 3
  | .bump _ => 2
  | .raise _ => 1
  | .done _ _ => 0

theorem left_lt {r r' : Cells UInt8} (h : body b r = some (b', r')) : b'.left < b.left := by
  cases b with
  | test len out =>
    rw [body] at h
    split_ifs at h with hc
    cases h
    simp only [Sec.left]
    omega
  | load len out =>
    cases h
    simp only [Sec.left, List.length_append, List.length_singleton]
    omega
  | room ch =>
    cases h
    split_ifs <;> simp [Sec.left]
  | done ch kept => cases h
  | _ =>
    cases h
    simp only [Sec.left]
    omega

/-- **Nobody waits for `g_kbd_lock` in vain**: it is free, or another
processor has it and lets it go by steps of its own. The handler never waits
for the context it has interrupted. -/
theorem kbd_lock_live {on fl : Bool} (h : (kernel bsp).Reachable s) (hi : s.cpu i = ⟨on, .waiting fl b⟩) :
    s.locked = false ∨
      ∃ j ≠ i, ∃ s', Alone (code bsp) j s s' ∧ s'.locked = false ∧ s'.cpu i = s.cpu i := by
  rcases waits_for_other h hi with hl | ⟨j, fl', b', hji, hj⟩
  · exact .inl hl
  · obtain ⟨s', hs', hl, hcpu⟩ := gets_out (P := code bsp) (m := fun b _ => b.left)
      (fun _ _ _ _ hb => left_lt hb) b'.left b' s le_rfl hj
    exact .inr ⟨j, hji, s', hs', hl, hcpu i hji.symm⟩

/-- One processor reads while another one waits to. -/
theorem kbd_lock_live_reads : ∃ s : St (Fin 2), s.locked = true ∧
    ∃ j ≠ 0, ∃ s', Alone (code 0) j s s' ∧ s'.locked = false ∧ s'.cpu 0 = s.cpu 0 := by
  have h₁ := boot_reachable.step (.out (i := 1) rfl (.read _ _ _ (show 0 < 1 by decide)))
  have h₂ := (h₁.step (.save (i := 1) rfl rfl)).step (.lock (i := 1) rfl rfl)
  have h₃ := h₂.step (.out (i := 0) rfl (.read _ _ _ (show 0 < 1 by decide)))
  have h₄ := h₃.step (.save (i := 0) rfl rfl)
  exact ⟨_, rfl, (kbd_lock_live h₄ (i := 0) rfl).resolve_left (by simp [boot])⟩

end Kbd

end Csos
