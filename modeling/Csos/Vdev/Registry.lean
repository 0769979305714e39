import Csos.Vdev.Model
/-!
# The device registry — notifications

The lists hold what the calls have put there (`Inv`), and each listener with
both callbacks has been told of exactly the devices that are registered: of
those before it by the replay of `vdev_listen`, of the others as they come and
go.
-/

namespace Csos

namespace Vdev

open Vfs

variable {dev : Addr → Device} {lis : Addr → Listener} {t : List (Call × ℤ)} {s : State} {d l : Addr}

theorem card_le_addrEnd : Fintype.card Addr ≤ addrEnd := by
  rw [Fintype.card_fin, addrEnd]

/-! ## Callbacks -/

/-- **Each listener of a walk gets the callback**, if it has one. -/
theorem notify_apply {ls : List Addr} (hnd : ls.Nodup) (log : Addr → List Event) (has : Addr → Bool)
    (e : Event) (l : Addr) :
    notify log has e ls l = if l ∈ ls ∧ has l = true then log l ++ [e] else log l := by
  induction ls generalizing log with
  | nil => simp [notify]
  | cons x ls ih =>
    obtain ⟨hx, hnd⟩ := List.nodup_cons.mp hnd
    rw [notify, ih hnd]
    by_cases hl : l = x
    · subst hl
      by_cases hh : has l = true
      · simp [hx, hh]
      · simp [hx, hh]
    · have hother : (if has x = true then Function.update log x (log x ++ [e]) else log) l = log l := by
        split
        · exact Function.update_of_ne hl _ _
        · rfl
      rw [hother]
      simp [hl]

theorem seen_concat (log : List Event) (e : Event) : seen (log ++ [e]) = seeStep (seen log) e := by
  rw [seen, List.foldl_append]
  rfl

theorem seen_map_added (ds : List Addr) : seen (ds.map .added) = ds.reverse := by
  have hgen : ∀ r : List Addr, (ds.map Event.added).foldl seeStep r = ds.reverse ++ r := by
    induction ds with
    | nil => exact fun r => rfl
    | cons x ds ih =>
      intro r
      rw [List.map_cons, List.foldl_cons, ih]
      simp [seeStep]
  rw [seen, hgen, List.append_nil]

/-! ## The invariant -/

/-- **The registry after a run.** -/
structure Inv (dev : Addr → Device) (lis : Addr → Listener) (t : List (Call × ℤ)) (s : State) : Prop where
  devs : Linked s.next s.devs (registered t)
  listeners : Linked s.lnext s.listeners (subscribed t)
  names : ((registered t).map fun d => (dev d).name).Nodup
  views : ∀ l ∈ subscribed t, (lis l).added = true → (lis l).removed = true →
    (seen (s.log l)).Perm (registered t)

theorem registered_concat (t : List (Call × ℤ)) (c : Call) (rc : ℤ) :
    registered (t ++ [(c, rc)]) = registerStep (registered t) (c, rc) := by
  rw [registered, List.foldl_append]
  rfl

theorem subscribed_concat (t : List (Call × ℤ)) (c : Call) (rc : ℤ) :
    subscribed (t ++ [(c, rc)]) = subscribeStep (subscribed t) (c, rc) := by
  rw [subscribed, List.foldl_append]
  rfl

/-- A call that changes nothing and counts for nothing. -/
theorem Inv.same (h : Inv dev lis t s) {c : Call} {rc : ℤ}
    (hreg : registerStep (registered t) (c, rc) = registered t)
    (hsub : subscribeStep (subscribed t) (c, rc) = subscribed t) : Inv dev lis (t ++ [(c, rc)]) s := by
  refine ⟨?_, ?_, ?_, ?_⟩
  · rw [registered_concat, hreg]
    exact h.devs
  · rw [subscribed_concat, hsub]
    exact h.listeners
  · rw [registered_concat, hreg]
    exact h.names
  · rw [registered_concat, subscribed_concat, hreg, hsub]
    exact h.views

theorem Inv.register (h : Inv dev lis t s) (d : Option Addr) :
    Inv dev lis (t ++ [(.register d, (vdevRegister dev lis s d).1)]) (vdevRegister dev lis s d).2 := by
  cases d with
  | none => exact h.same rfl rfl
  | some d =>
    unfold vdevRegister
    rw [h.devs.chain_eq card_le_addrEnd, h.listeners.chain_eq card_le_addrEnd]
    dsimp only
    split
    · exact h.same rfl rfl
    · split
      · exact h.same rfl rfl
      · rename_i hnew
        have hname : (dev d).name ∉ (registered t).map fun d => (dev d).name := fun hm => by
          obtain ⟨x, hx, he⟩ := List.mem_map.mp hm
          exact hnew (List.any_eq_true.mpr ⟨x, hx, decide_eq_true he⟩)
        have hd : d ∉ registered t := fun hm => hname (List.mem_map_of_mem hm)
        have hreg : registered (t ++ [(.register (some d), vfsOk)]) = d :: registered t := by
          rw [registered_concat, registerStep, if_pos rfl]
        have hsub : subscribed (t ++ [(.register (some d), vfsOk)]) = subscribed t := by
          rw [subscribed_concat]
          rfl
        refine ⟨?_, ?_, ?_, fun l hl ha hr => ?_⟩
        · rw [hreg]
          exact h.devs.push hd
        · rw [hsub]
          exact h.listeners
        · rw [hreg, List.map_cons]
          exact List.nodup_cons.mpr ⟨hname, h.names⟩
        · rw [hsub] at hl
          dsimp only
          rw [hreg, notify_apply h.listeners.nodup, if_pos ⟨hl, ha⟩, seen_concat]
          exact (h.views l hl ha hr).cons d

theorem Inv.unregister (h : Inv dev lis t s) (d : Option Addr) :
    Inv dev lis (t ++ [(.unregister d, (vdevUnregister lis s d).1)]) (vdevUnregister lis s d).2 := by
  cases d with
  | none => exact h.same rfl rfl
  | some d =>
    unfold vdevUnregister
    dsimp only
    rw [h.listeners.chain_eq card_le_addrEnd]
    split
    · exact h.same rfl rfl
    · have hreg : registered (t ++ [(.unregister (some d), vfsOk)]) = (registered t).erase d := by
        rw [registered_concat, registerStep, if_pos rfl]
      have hsub : subscribed (t ++ [(.unregister (some d), vfsOk)]) = subscribed t := by
        rw [subscribed_concat]
        rfl
      have hd : d ∉ (registered t).erase d := h.devs.nodup.not_mem_erase
      refine ⟨?_, ?_, ?_, fun l hl ha hr => ?_⟩
      · rw [hreg]
        exact (h.devs.unlink card_le_addrEnd).update hd _
      · rw [hsub]
        exact h.listeners
      · rw [hreg]
        exact h.names.sublist (List.erase_sublist.map _)
      · rw [hsub] at hl
        dsimp only
        rw [hreg, notify_apply h.listeners.nodup, if_pos ⟨hl, hr⟩, seen_concat]
        exact (h.views l hl ha hr).erase d

theorem Inv.listen (h : Inv dev lis t s) (l : Option Addr)
    (hl : ∀ x, l = some x → x ∉ subscribed t) :
    Inv dev lis (t ++ [(.listen l, vfsOk)]) (vdevListen lis s l) := by
  cases l with
  | none => exact h.same rfl rfl
  | some l =>
    have hnew := hl l rfl
    have hreg : registered (t ++ [(.listen (some l), vfsOk)]) = registered t := by
      rw [registered_concat]
      rfl
    have hsub : subscribed (t ++ [(.listen (some l), vfsOk)]) = l :: subscribed t := by
      rw [subscribed_concat]
      rfl
    unfold vdevListen
    rw [h.devs.chain_eq card_le_addrEnd]
    refine ⟨?_, ?_, ?_, fun x hx ha hr => ?_⟩
    · rw [hreg]
      exact h.devs
    · rw [hsub]
      exact h.listeners.push hnew
    · rw [hreg]
      exact h.names
    · rw [hsub] at hx
      rw [hreg]
      dsimp only
      by_cases hxl : x = l
      · subst hxl
        rw [Function.update_self, if_pos ha, seen_map_added]
        exact List.reverse_perm _
      · rw [Function.update_of_ne hxl]
        exact h.views x ((List.mem_cons.mp hx).resolve_left hxl) ha hr

theorem Inv.unlisten (h : Inv dev lis t s) (l : Option Addr) :
    Inv dev lis (t ++ [(.unlisten l, vfsOk)]) (vdevUnlisten s l) := by
  cases l with
  | none => exact h.same rfl rfl
  | some l =>
    have hreg : registered (t ++ [(.unlisten (some l), vfsOk)]) = registered t := by
      rw [registered_concat]
      rfl
    have hsub : subscribed (t ++ [(.unlisten (some l), vfsOk)]) = (subscribed t).erase l := by
      rw [subscribed_concat]
      rfl
    have hl : l ∉ (subscribed t).erase l := h.listeners.nodup.not_mem_erase
    refine ⟨?_, ?_, ?_, fun x hx ha hr => ?_⟩
    · rw [hreg]
      exact h.devs
    · rw [hsub]
      exact (h.listeners.unlink card_le_addrEnd).update hl _
    · rw [hreg]
      exact h.names
    · rw [hsub] at hx
      rw [hreg]
      exact h.views x (List.mem_of_mem_erase hx) ha hr

/-- **Every run keeps the invariant.** -/
theorem Run.inv (h : Run dev lis t s) : Inv dev lis t s := by
  induction h with
  | nil next lnext =>
    exact ⟨rfl, rfl, List.nodup_nil, fun l hl => absurd hl (by simp [subscribed])⟩
  | @snoc t s c _ hc ih =>
    cases c with
    | register d => exact ih.register d
    | unregister d => exact ih.unregister d
    | listen l =>
      refine ih.listen l fun x hx => ?_
      have hnot := hc x (by rw [hx])
      rwa [ih.listeners.chain_eq card_le_addrEnd] at hnot
    | unlisten l => exact ih.unlisten l

/-! ## The result -/

/-- **No notification is lost or duplicated.** After every run the names of the
registered devices are pairwise different, `vdev_find` finds the device with a
name, and for every subscribed listener that has both callbacks the devices
for which `added` has run and `removed` not afterwards are the registered
ones, each once. -/
theorem notifications_exact (h : Run dev lis t s) :
    ((registered t).map fun d => (dev d).name).Nodup ∧
      (∀ name, vdevFind dev s name = (registered t).find? fun d => (dev d).name = name) ∧
      ∀ l ∈ subscribed t, (lis l).added = true → (lis l).removed = true →
        (seen (s.log l)).Perm (registered t) ∧ (seen (s.log l)).Nodup := by
  have hi := h.inv
  refine ⟨hi.names, fun name => ?_, fun l hl ha hr => ?_⟩
  · rw [vdevFind, hi.devs.chain_eq card_le_addrEnd]
  · have hperm := hi.views l hl ha hr
    exact ⟨hperm, hperm.nodup_iff.mpr hi.devs.nodup⟩

/-! ### A run -/

/-- A character device. -/
def exampleDevice (_ : Addr) : Device := ⟨[97], vdevChar, true, false, 0, 0⟩

/-- After `init_vdev` and the registration of a device. -/
def exampleState : State where
  devs := some 1
  next := Function.update (fun _ => none) 1 none
  listeners := none
  lnext := fun _ => none
  log := fun _ => []

/-- A listener subscribes when a device is registered. -/
theorem exampleRun (lis : Addr → Listener) : Run exampleDevice lis
    [(.register (some 1), vfsOk), (.listen (some 2), vfsOk)]
      (vdevListen lis exampleState (some 2)) := by
  have hempty : Linked (fun _ : Addr => none) none [] := rfl
  have hcall : call exampleDevice lis (initVdev (fun _ => none) fun _ => none)
      (.register (some 1)) = (vfsOk, exampleState) := by
    simp only [call, vdevRegister, initVdev, hempty.chain_eq card_le_addrEnd]
    rfl
  have h1 : Run exampleDevice lis [(.register (some 1), vfsOk)] exampleState := by
    have hnil : Run exampleDevice lis [] (initVdev (fun _ => none) fun _ => none) := .nil _ _
    have hrun := hnil.snoc
      (c := .register (some 1)) fun _ hl => absurd hl (by simp)
    rwa [hcall] at hrun
  refine h1.snoc (c := .listen (some 2)) fun l _ => ?_
  have hnone : chain exampleState.lnext addrEnd exampleState.listeners = [] :=
    hempty.chain_eq card_le_addrEnd
  rw [hnone]
  exact List.not_mem_nil

/-- The replay tells it of the device. -/
theorem notifications_exact_replay : ∃ s, Run exampleDevice (fun _ => ⟨true, true⟩)
    [(.register (some 1), vfsOk), (.listen (some 2), vfsOk)] s ∧
      (seen (s.log 2)).Perm [1] ∧ (seen (s.log 2)).Nodup := by
  have hrun := exampleRun fun _ => ⟨true, true⟩
  exact ⟨_, hrun, (notifications_exact hrun).2.2 2 (by decide) rfl rfl⟩

/-- A listener without `added` is told of nothing. -/
theorem view_without_added : ¬ ∀ (dev : Addr → Device) (lis : Addr → Listener) t s,
    Run dev lis t s → ∀ l ∈ subscribed t, (seen (s.log l)).Perm (registered t) := by
  intro h
  have hperm := h _ _ _ _ (exampleRun fun _ => ⟨false, true⟩) 2 (by decide)
  have hseen : seen ((vdevListen (fun _ => ⟨false, true⟩) exampleState (some 2)).log 2) = [] := rfl
  rw [hseen] at hperm
  exact absurd hperm.length_eq (by decide)

end Vdev

end Csos
