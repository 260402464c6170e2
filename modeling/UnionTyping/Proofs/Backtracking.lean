import UnionTyping.Proofs.Growth

/-!
# `Proofs.Backtracking` — the trail through any use of an arena

A snapshot is nothing but a length of the trail, so it means something only as long as the trail was not cut below it.
`Usage` is an arena together with what the solver cannot see of its past: the snapshots that no rollback has gone
below, each with the arena of which it was taken, and the moment at which each variable was bound last. `Usage.after`
carries out any sequence of moves in which only such snapshots are gone back to.

One move keeps `Usage.Sound`: the arena extends the empty one and every arena that can still be gone back to. For a
rollback this needs that what extends a snapshot extends every lower one (`Extends.rollback_below`).
-/

namespace UnionTyping

open List

/-! ## Moves -/

/-- What is done with an arena. -/
inductive Move where
  | fresh
  | freshNamed (name : String)
  | bind (id : Nat) (t : Ty)
  | snapshot
  | rollback (s : Snapshot)

/-- A snapshot, as the arena of which it was taken and the moment of taking. -/
structure Saved where
  arena : Arena
  time : Nat

/-- The length of the trail, which is all that is kept of it. -/
def Saved.snapshot (e : Saved) : Snapshot :=
  e.arena.snapshot

/-- An arena and its past. -/
structure Usage where
  arena : Arena := {}
  /-- The snapshots that no rollback went below. -/
  saved : List Saved := []
  /-- The number of moves so far. -/
  clock : Nat := 0
  /-- When each variable was bound last. -/
  boundAt : Nat → Nat := fun _ => 0

namespace Usage

/-- Carries out a move. A variable that cannot be bound is left as it is; a rollback that is not to one of the saved
    snapshots is out of order. -/
def next? (u : Usage) : Move → Option Usage
  | .fresh => some { u with arena := u.arena.fresh.2, clock := u.clock + 1 }
  | .freshNamed name => some { u with arena := (u.arena.freshNamed name).2, clock := u.clock + 1 }
  | .bind id t => some <|
    match u.arena.bind? id t with
    | .ok bound =>
      { u with arena := bound, clock := u.clock + 1, boundAt := fun x => if x = id then u.clock else u.boundAt x }
    | .error _ => { u with clock := u.clock + 1 }
  | .snapshot => some { u with saved := ⟨u.arena, u.clock⟩ :: u.saved, clock := u.clock + 1 }
  | .rollback s =>
    if s ∈ u.saved.map Saved.snapshot then
      some { u with
        arena := u.arena.rollback s
        saved := u.saved.filter fun e => e.snapshot.depth ≤ s.depth
        clock := u.clock + 1 }
    else none

/-- Carries out moves from the empty arena on, if they are in order. -/
def after (moves : List Move) : Option Usage :=
  moves.foldlM next? {}

variable {u : Usage} {id : Nat}

/-- **What holds of every use**: the arena extends all that it can be taken back to, and the trail is in the order in
    which its variables were bound. -/
structure Sound (u : Usage) : Prop where
  exact : Arena.Extends {} u.arena
  ordered : u.arena.trail.Pairwise fun later earlier => u.boundAt earlier < u.boundAt later
  past : ∀ id ∈ u.arena.trail, u.boundAt id < u.clock
  extended : ∀ e ∈ u.saved, e.arena.Extends u.arena
  times : ∀ e ∈ u.saved, e.time ≤ u.clock ∧ ∀ id ∈ u.arena.trail, id ∈ e.arena.trail ↔ u.boundAt id < e.time

namespace Sound

theorem mem_trail (h : u.Sound) : id ∈ u.arena.trail ↔ u.arena.isBound id = true := by
  have hmem : id ∈ _ ↔ _ := h.exact.mem_boundSince
  simpa [Arena.boundSince, Arena.snapshot, Arena.binding?, Arena.isBound] using hmem

theorem nodup_trail (h : u.Sound) : u.arena.trail.Nodup :=
  h.ordered.imp fun hlt he => Nat.ne_of_gt hlt (congrArg u.boundAt he)

/-! ## One move -/

/-- Nothing is bound: a variable is handed out, or a binding is refused. -/
theorem wait (h : u.Sound) {a : Arena} (ha : u.arena.Extends a) (htrail : a.trail = u.arena.trail) :
    Sound { u with arena := a, clock := u.clock + 1 } where
  exact := h.exact.trans ha
  ordered := htrail ▸ h.ordered
  past id hid := Nat.lt_succ_of_lt (h.past id (htrail ▸ hid))
  extended e he := (h.extended e he).trans ha
  times e he := ⟨Nat.le_succ_of_le (h.times e he).1, htrail ▸ (h.times e he).2⟩

theorem bind (h : u.Sound) {t : Ty} {b : Arena} (hb : u.arena.bind? id t = .ok b) {stamp : Nat → Nat}
    (hnow : stamp id = u.clock) (hother : ∀ x, x ≠ id → stamp x = u.boundAt x) :
    Sound { u with arena := b, clock := u.clock + 1, boundAt := stamp } := by
  have hgrows := Arena.Extends.of_bind hb
  have htrail := Arena.trail_bind hb
  have hnew : id ∉ u.arena.trail := by
    rw [h.mem_trail, Arena.isBound, Arena.unbound_of_bind hb]
    exact Bool.false_ne_true
  have hkept : ∀ x ∈ u.arena.trail, stamp x = u.boundAt x := fun x hx => hother x fun he => hnew (he ▸ hx)
  have hordered : (id :: u.arena.trail).Pairwise fun later earlier => stamp earlier < stamp later := by
    refine pairwise_cons.mpr ⟨fun x hx => ?_, h.ordered.imp_of_mem fun hx hy hlt => ?_⟩
    · rw [hkept x hx, hnow]
      exact h.past x hx
    · rwa [hkept _ hx, hkept _ hy]
  have hpast : ∀ x ∈ id :: u.arena.trail, stamp x < u.clock + 1 := by
    refine forall_mem_cons.mpr ⟨by omega, fun x hx => ?_⟩
    rw [hkept x hx]
    exact Nat.lt_succ_of_lt (h.past x hx)
  have hsince : ∀ e ∈ u.saved, ∀ x ∈ id :: u.arena.trail, x ∈ e.arena.trail ↔ stamp x < e.time := by
    intro e he
    refine forall_mem_cons.mpr ⟨?_, fun x hx => ?_⟩
    · rw [hnow]
      exact iff_of_false (fun hmem => hnew ((h.extended e he).trail.subset hmem)) (Nat.not_lt.mpr (h.times e he).1)
    · rw [hkept x hx]
      exact (h.times e he).2 x hx
  exact ⟨h.exact.trans hgrows, htrail ▸ hordered, htrail ▸ hpast, fun e he => (h.extended e he).trans hgrows,
    fun e he => ⟨Nat.le_succ_of_le (h.times e he).1, htrail ▸ hsince e he⟩⟩

theorem snapshot (h : u.Sound) :
    Sound { u with saved := ⟨u.arena, u.clock⟩ :: u.saved, clock := u.clock + 1 } where
  exact := h.exact
  ordered := h.ordered
  past id hid := Nat.lt_succ_of_lt (h.past id hid)
  extended := forall_mem_cons.mpr ⟨.refl _, h.extended⟩
  times := forall_mem_cons.mpr
    ⟨⟨Nat.le_succ _, fun id hid => iff_of_true hid (h.past id hid)⟩,
      fun e he => ⟨Nat.le_succ_of_le (h.times e he).1, (h.times e he).2⟩⟩

theorem rollback (h : u.Sound) {e : Saved} (he : e ∈ u.saved) : Sound { u with
    arena := u.arena.rollback e.snapshot
    saved := u.saved.filter fun e' => e'.snapshot.depth ≤ e.snapshot.depth
    clock := u.clock + 1 } := by
  have hback := h.extended e he
  have hsuffix : (u.arena.rollback e.snapshot).trail <:+ u.arena.trail := Arena.trail_rollback hback ▸ hback.trail
  refine ⟨hback.rollback_below h.exact (Nat.zero_le _), h.ordered.sublist hsuffix.sublist,
    fun id hid => Nat.lt_succ_of_lt (h.past id (hsuffix.subset hid)), fun e' he' => ?_, fun e' he' => ?_⟩
  · obtain ⟨hmem, hdepth⟩ := mem_filter.mp he'
    exact hback.rollback_below (h.extended e' hmem) (of_decide_eq_true hdepth)
  · obtain ⟨htime, hsince⟩ := h.times e' (mem_filter.mp he').1
    exact ⟨Nat.le_succ_of_le htime, fun id hid => hsince id (hsuffix.subset hid)⟩

/-- **Every move in order keeps a use sound.** -/
theorem next {v : Usage} (h : u.Sound) {move : Move} (hv : u.next? move = some v) : v.Sound := by
  cases move with
  | fresh => exact Option.some.inj hv ▸ h.wait (.of_fresh _) rfl
  | freshNamed name => exact Option.some.inj hv ▸ h.wait (.of_freshNamed _ name) rfl
  | bind id t =>
    rw [next?] at hv
    cases hb : u.arena.bind? id t with
    | ok b =>
      rw [hb] at hv
      exact Option.some.inj hv ▸ h.bind hb (if_pos rfl) fun x hx => if_neg hx
    | error e =>
      rw [hb] at hv
      exact Option.some.inj hv ▸ h.wait (.refl _) rfl
  | snapshot => exact Option.some.inj hv ▸ h.snapshot
  | rollback s =>
    rw [next?] at hv
    by_cases hs : s ∈ u.saved.map Saved.snapshot
    · rw [if_pos hs] at hv
      obtain ⟨e, he, rfl⟩ := mem_map.mp hs
      exact Option.some.inj hv ▸ h.rollback he
    · rw [if_neg hs] at hv
      cases hv

end Sound

/-! ## Any sequence of moves -/

theorem sound_after {moves : List Move} (h : after moves = some u) : u.Sound := by
  have hrun : ∀ (moves : List Move) (v : Usage), v.Sound → moves.foldlM next? v = some u → u.Sound := by
    intro moves
    induction moves with
    | nil => exact fun v hv h => Option.some.inj h ▸ hv
    | cons move moves ih =>
      intro v hv h
      obtain ⟨w, hw, hrest⟩ := Option.bind_eq_some_iff.mp h
      exact ih w (hv.next hw) hrest
  exact hrun moves {} ⟨.refl _, .nil, by simp, by simp, by simp⟩ h

/-- What was bound since a snapshot is the part of the trail above it. -/
theorem Sound.mem_boundSince (h : u.Sound) {e : Saved} (he : e ∈ u.saved) :
    id ∈ u.arena.boundSince e.snapshot ↔ u.arena.isBound id = true ∧ e.time ≤ u.boundAt id := by
  obtain ⟨new, htrail, -⟩ := (h.extended e he).grown
  have hapart : List.Disjoint new e.arena.trail := disjoint_of_nodup_append (htrail ▸ h.nodup_trail)
  rw [Saved.snapshot, Arena.Extends.boundSince_eq htrail, mem_reverse, ← h.mem_trail]
  constructor
  · intro hmem
    have hlisted : id ∈ u.arena.trail := htrail ▸ mem_append_left _ hmem
    exact ⟨hlisted, Nat.not_lt.mp (mt ((h.times e he).2 id hlisted).mpr (hapart hmem))⟩
  · rintro ⟨hlisted, hlater⟩
    refine (mem_append.mp (htrail ▸ hlisted)).resolve_right fun hold => ?_
    exact Nat.not_lt.mpr hlater (((h.times e he).2 id hlisted).mp hold)

end Usage

/-- **The trail is exact, and rollback restores.** After any moves in which no snapshot is gone back to that a rollback
    went below, the trail lists the bound variables, each once, the one bound last first. Going back to a snapshot gives
    every variable the binding that it had when the snapshot was taken; variables handed out since are still there and
    are unbound. What counts as bound since then are the variables that have been bound from that moment on, in the
    order of binding. -/
theorem rollback_restores_snapshot {moves : List Move} {u : Usage} (h : Usage.after moves = some u) :
    (u.arena.trail.Nodup ∧ (∀ id, id ∈ u.arena.trail ↔ u.arena.isBound id = true) ∧
      u.arena.trail.Pairwise fun later earlier => u.boundAt earlier < u.boundAt later) ∧
    ∀ e ∈ u.saved,
      (∀ id, (u.arena.rollback e.snapshot).binding? id = e.arena.binding? id) ∧
      ((u.arena.rollback e.snapshot).size = u.arena.size ∧
        ∀ id, e.arena.size ≤ id → (u.arena.rollback e.snapshot).binding? id = none) ∧
      (u.arena.boundSince e.snapshot).Pairwise (fun earlier later => u.boundAt earlier < u.boundAt later) ∧
      ∀ id, id ∈ u.arena.boundSince e.snapshot ↔ u.arena.isBound id = true ∧ e.time ≤ u.boundAt id := by
  have hsound := Usage.sound_after h
  refine ⟨⟨hsound.nodup_trail, fun id => hsound.mem_trail, hsound.ordered⟩, fun e he => ?_⟩
  have hgrows := hsound.extended e he
  have hback := Arena.binding?_rollback hgrows
  refine ⟨hback, ⟨Arena.size_rollback _ _, fun id hid => ?_⟩, ?_, fun id => hsound.mem_boundSince he⟩
  · exact (hback id).trans (Arena.binding?_eq_none hid)
  · exact pairwise_reverse.mpr (hsound.ordered.sublist (take_sublist _ _))

/-- A snapshot inside of another one, a binding that is refused, and a variable that is bound again after the inner
    snapshot was gone back to. -/
theorem rollback_restores_snapshot_nested :
    let run := Usage.after [.fresh, .bind 0 .integer, .snapshot, .freshNamed "x", .bind 1 .string, .bind 0 .string,
      .snapshot, .fresh, .bind 2 .double, .rollback ⟨2⟩, .bind 2 .boolean]
    ∃ u, run = some u ∧ u.arena.trail = [2, 1, 0] ∧ u.arena.boundSince ⟨1⟩ = [1, 2] ∧
      ∃ e ∈ u.saved, e.snapshot = ⟨1⟩ ∧ ∀ id, (u.arena.rollback ⟨1⟩).binding? id = e.arena.binding? id := by
  intro run
  obtain ⟨u, hu⟩ : ∃ u, run = some u := Option.isSome_iff_exists.mp (by decide +kernel)
  have hseen : run.map (fun u => (u.arena.trail, u.arena.boundSince ⟨1⟩, u.saved.map Saved.snapshot)) =
      some ([2, 1, 0], [1, 2], [⟨2⟩, ⟨1⟩]) := by decide +kernel
  rw [hu, Option.map_some, Option.some.injEq, Prod.mk.injEq, Prod.mk.injEq] at hseen
  obtain ⟨htrail, hsince, hsaved⟩ := hseen
  have hmem : ⟨1⟩ ∈ u.saved.map Saved.snapshot := by simp [hsaved]
  obtain ⟨e, he, hs⟩ := mem_map.mp hmem
  have hback := ((rollback_restores_snapshot hu).2 e he).1
  exact ⟨u, hu, htrail, hsince, e, he, hs, hs ▸ hback⟩

end UnionTyping
