import ScriptCore.Proofs.Calls.Collecting
import ScriptCore.Proofs.Calls.Founding
import ScriptCore.Proofs.Drive.Isolation
import ScriptCore.Proofs.Drive.Unwinding
import ScriptCore.Proofs.Renaming.Programs

/-! # Programs work by acts

A host starts programs on a machine, drives them over their boundaries, and collects garbage between two of
these. All that happens to the heap on the way happens by acts and collections. A world recounts a machine when
it has its heap, is lawful, and the open frames stand in it; from one that recounts a machine, every machine that
the host brings it to is recounted by what the world comes to.

* `World.Comes`: acts and collections, one after the other.
* `Machine.Comes`: **what the host brings a machine to**, by starting, driving and collecting.
* `Machine.Comes.recounts`: **programs work by acts**, and collections keep what is known of the calls. -/

namespace ScriptCore

variable {S : Setting} {w w' w₁ w₂ : World} {label : List Handle} {own : Handle → Prop} {host : Host}
  {forbids : String → Prop} {m m' m₁ m₂ m₃ : Machine}

/-! ### Acts and collections -/

/-- Garbage was collected, and what was reported kept alive. -/
def World.sweep (w : World) (reported : List Handle) : World := w.shrink (w.heap.collect reported)

/-- **Acts and collections**, one after the other. A collection is told of what the realm needs. -/
inductive World.Comes (S : Setting) (w : World) : World → Prop where
  | refl : Comes S w w
  | act {w₁ w₂ : World} {label : List Handle} (hw : Comes S w w₁) (ha : Act S w₁ label w₂) : Comes S w w₂
  | swept {w₁ : World} (hw : Comes S w w₁) (reported : List Handle)
      (hrealm : ∀ x ∈ S.realm.handles, x ∈ reported) : Comes S w (w₁.sweep reported)

theorem World.Lawful.sweep (hw : w.Lawful S) {reported : List Handle}
    (hrealm : ∀ x ∈ S.realm.handles, x ∈ reported) : (w.sweep reported).Lawful S :=
  hw.shrunk (Heap.shrinks_collect hw.heap.valid reported) (hw.heap.valid.collect reported)
    (Heap.numbered_collect hw.heap.numbered reported) fun _ hx => Heap.retains_collect hw.heap.valid (hrealm _ hx)

namespace World.Comes

theorem trans (hw : Comes S w w₁) (hw' : Comes S w₁ w₂) : Comes S w w₂ := by
  induction hw' with
  | refl => exact hw
  | act _ ha ih => exact ih.act ha
  | swept _ reported hrealm ih => exact ih.swept reported hrealm

theorem lawful (hcomes : Comes S w w') (hw : w.Lawful S) : w'.Lawful S := by
  induction hcomes with
  | refl => exact hw
  | act _ ha ih => exact ha.lawful ih
  | swept _ reported hrealm ih => exact ih.sweep hrealm

end World.Comes

theorem Acts.comes (hacts : Acts S own w w') : w.Comes S w' := by
  induction hacts with
  | refl => exact .refl
  | tail _ ha _ ih => exact ih.act ha

/-! ### What the host does -/

namespace Machine

/-- **What the host brings a machine to**: it starts programs in the global scope, drives what is open over one
boundary, and collects garbage. No program declares a function globally under a name that `forbids` holds of. -/
inductive Comes (host : Host) (forbids : String → Prop) (m : Machine) : Machine → Prop where
  | refl : Comes host forbids m m
  | started {m₁ m₂ : Machine} (hm : Comes host forbids m m₁) (body : List Stmt) {options : BranchOptions}
      (hspares : ∀ f ∈ hoistedOfList body, ∀ name, f.name = some name → ¬ forbids name)
      (hrun : (host.startRoot (m₁.program body options) m₁).state? = some m₂) : Comes host forbids m m₂
  | crossed {m₁ m₂ : Machine} (hm : Comes host forbids m m₁) (bound : Nat)
      (hrun : (advance host (host.engine bound) 0 m₁).state? = some m₂) : Comes host forbids m m₂
  | collected {m₁ m₂ : Machine} (hm : Comes host forbids m m₁)
      (hrun : (collectGarbage m₁).state? = some m₂) : Comes host forbids m m₂

/-- A drive brings a machine to where it ends. -/
theorem Comes.driven (bound : Nat) : ∀ (n : Nat) {m₁ : Machine}, Comes host forbids m m₁ →
    (drive host (host.engine bound) 0 n m₁).state? = some m₂ → Comes host forbids m m₂
  | 0, _, _, hrun => by cases hrun
  | n + 1, m₁, hm, hrun => by
    rw [drive_succ] at hrun
    cases hcross : advance host (host.engine bound) 0 m₁ with
    | stalled => rw [hcross] at hrun; cases hrun
    | failed e m₃ =>
      rw [hcross] at hrun
      exact hm.crossed bound (by rw [hcross]; exact hrun)
    | done r m₃ =>
      rw [hcross] at hrun
      have hm₃ : Comes host forbids m m₃ := hm.crossed bound (by rw [hcross]; rfl)
      cases r with
      | going => exact hm₃.driven bound n hrun
      | finished o =>
        cases o <;> cases hrun <;> exact hm₃

/-- Boundary after boundary brings a machine on. -/
theorem Comes.crossed_times {bound : Nat} (n : Nat) {m₁ : Machine} (hm : Comes host forbids m m₁)
    (hrun : crossings host (host.engine bound) 0 n m₁ = some m₂) : Comes host forbids m m₂ :=
  crossings_keep (fun hm hadvance => hm.crossed bound (by rw [hadvance]; rfl)) n hm hrun

/-- A program is started on a new machine. -/
theorem comes_openedProgram {limits : HeapLimits} {body : List Stmt} (hopened : openedProgram limits body = some m)
    (hspares : ∀ f ∈ hoistedOfList body, ∀ name, f.name = some name → ¬ forbids name) :
    ∃ m₀, Machine.create limits {} 0 true = .ok m₀ ∧ Comes (Host.plain []) forbids m₀ m := by
  obtain ⟨m₀, hcreate, rfl⟩ := Option.map_eq_some_iff.mp hopened
  cases hm : Machine.create limits {} 0 true with
  | error e => rw [hm] at hcreate; cases hcreate
  | ok m₁ =>
    rw [hm] at hcreate
    cases hcreate
    have hheld := Machine.held_create hm
    refine ⟨m₀, rfl, @Comes.started _ _ _ _ _ .refl body {} hspares ?_⟩
    rw [startRoot_eq (Host.bySyntax_plain []) hheld.frames hheld.active]
    rfl

end Machine

/-! ### The world of a machine -/

theorem Stack.above_zero {α : Type} (s : Stack α) : s.above 0 = s.items := by
  unfold Stack.above
  rw [s.size_eq, Nat.sub_zero, List.take_length]

/-- **The world recounts the machine**: it has its heap and is lawful, the open frames stand in it, and no task is
running. -/
structure World.Recounts (S : Setting) (w : World) (m : Machine) : Prop where
  lawful : w.Lawful S
  heap : m.heap = w.heap
  realm : m.realm = S.realm
  active : m.active = none
  stands : w.Stands S (fun _ => True) m.frames.items

namespace World.Recounts

theorem describes (hm : w.Recounts S m) : w.Describes S m := ⟨hm.heap, hm.realm⟩

theorem held (hm : w.Recounts S m) : Held none m.frames m.monitor.limits m :=
  ⟨hm.active, rfl, rfl, hm.heap ▸ hm.lawful.heap.scripted⟩

/-- A machine without frames. -/
theorem idle (hw : w.Lawful S) (hheap : m.heap = w.heap) (hrealm : m.realm = S.realm) (hactive : m.active = none)
    (hframes : m.frames = .empty) : w.Recounts S m := ⟨hw, hheap, hrealm, hactive, hframes ▸ .nil⟩

/-- **Collecting garbage.** What the realm and the frames hold is reported. -/
theorem swept (hm : w.Recounts S m) : w.Comes S (w.sweep m.handles) ∧ (w.sweep m.handles).Recounts S m.swept := by
  have hrealm : ∀ x ∈ S.realm.handles, x ∈ m.handles := fun x hx => List.mem_append_left _ (hm.realm ▸ hx)
  have hkept : ∀ f ∈ m.frames.items, ∀ x ∈ f.handles, w.heap.Retains (w.heap.collect m.handles) x := fun f hf x hx =>
    Heap.retains_collect hm.lawful.heap.valid (List.mem_append_right _ (List.mem_flatMap_of_mem hf hx))
  refine ⟨.swept .refl _ hrealm, hm.lawful.sweep hrealm, ?_, hm.realm, hm.active,
    hm.stands.shrunk hm.lawful (Heap.shrinks_collect hm.lawful.heap.valid _) hkept⟩
  show m.heap.collect m.handles = w.heap.collect m.handles
  rw [hm.heap]

theorem collectedIfDue (hm : w.Recounts S m) : ∃ w', w.Comes S w' ∧ w'.Recounts S m.collected := by
  rcases m.collected_cases with h | h
  · exact ⟨_, h ▸ hm.swept⟩
  · exact ⟨w, .refl, h.symm ▸ hm⟩

theorem collected (hm : w.Recounts S m) (hrun : (collectGarbage m).state? = some m') :
    ∃ w', w.Comes S w' ∧ w'.Recounts S m' := by
  rw [collectGarbage_eq hm.active] at hrun
  cases hrun
  exact ⟨_, hm.swept⟩

/-- **Starting a program.** -/
theorem started (hhost : host.BySyntax) (hm : w.Recounts S m) {body : List Stmt} {options : BranchOptions}
    (hspares : ∀ f ∈ hoistedOfList body, ∀ name, f.name = some name → ¬ S.forbids name)
    (hrun : (host.startRoot (m.program body options) m).state? = some m') : w.Recounts S m' := by
  cases hempty : m.frames.isEmpty with
  | false =>
    rw [startRoot_running hempty] at hrun
    cases hrun
    exact hm
  | true =>
    have hframes : m.frames = .empty := Stack.ext (List.isEmpty_iff.mp hempty)
    rw [startRoot_eq hhost hframes hm.active] at hrun
    cases hrun
    obtain ⟨sc, hsc, -⟩ := hm.lawful.realm.scope
    have hproper : (m.program body options).Proper S w :=
      ⟨⟨sc.object, sc, by rw [← hm.realm] at hsc; exact hsc, rfl⟩, fun _ => hspares⟩
    obtain ⟨htask, hnew⟩ := Task.proper_ofRequest hproper
    refine ⟨hm.lawful, (Machine.heap_openFrame ..).trans hm.heap, (Machine.realm_openFrame ..).trans hm.realm,
      (Machine.active_openFrame ..).trans hm.active, ?_⟩
    rw [Machine.frames_openFrame, hframes]
    exact World.Stands.nil.push ⟨htask, trivial⟩ hnew

/-- **Crossing a boundary.** -/
theorem crossed (hhost : host.BySyntax) (hm : w.Recounts S m) (bound : Nat)
    (hrun : (advance host (host.engine bound) 0 m).state? = some m') : ∃ w', w.Comes S w' ∧ w'.Recounts S m' := by
  by_cases hsize : 0 < m.frames.size
  · obtain ⟨s, f, hframes⟩ := Stack.exists_push hsize
    obtain ⟨w₁, hcomes, hm₁⟩ := hm.collectedIfDue
    have hstands := hm₁.stands
    rw [Machine.frames_collected, hframes, Stack.items_push, ← s.above_zero] at hstands
    have hheld : Held none s m.monitor.limits { m.collected with frames := s } :=
      ⟨hm₁.active, rfl, by simp, hm₁.held.heap⟩
    have hholds := host.engine_holds bound
    have hturn := turn_leads (m := { m.collected with frames := s }) hhost (host.engine_fair hhost bound) hholds
      hm₁.lawful (fun _ _ => trivial) ⟨hm₁.heap, hm₁.realm⟩ hheld (Nat.zero_le _) hstands
    rw [advance_eq_turn hframes (Nat.zero_le _)] at hrun
    obtain hstalled | ⟨r, m₂, s', hdone, hrestacked, hheld'⟩ := turn_restacks host hholds hheld (Nat.zero_le _) f
    · rw [hstalled] at hrun
      cases hrun
    rw [hdone] at hrun hturn
    cases hrun
    obtain ⟨w', hacts, hm', hleaves⟩ := hturn
    refine ⟨w', hcomes.trans hacts.comes, hacts.lawful hm₁.lawful, hm'.heap, hm'.realm, hheld'.active, ?_⟩
    rw [hheld'.frames]
    have hgoing : w'.Stands S (fun _ => True) (m'.frames.above 0) → w'.Stands S (fun _ => True) s'.items := by
      rw [Stack.above_zero, hheld'.frames]
      exact id
    cases hrestacked with
    | finished o hs =>
      rw [List.length_eq_zero_iff.mp (s.size_eq.symm.trans hs)]
      exact .nil
    | closed o _ _ => exact hgoing hleaves
    | answered o _ => exact hgoing hleaves
    | asked child _ => exact hgoing hleaves
  · rw [advance_noFrame (Nat.le_of_not_lt hsize)] at hrun
    cases hrun
    exact ⟨w, .refl, hm⟩

end World.Recounts

/-- **Programs work by acts.** -/
theorem Machine.Comes.recounts (hhost : host.BySyntax) (hcomes : m.Comes host S.forbids m') (hm : w.Recounts S m) :
    ∃ w', w.Comes S w' ∧ w'.Recounts S m' := by
  induction hcomes with
  | refl => exact ⟨w, .refl, hm⟩
  | started _ body hspares hrun ih =>
    obtain ⟨w₁, hcomes, hm₁⟩ := ih
    exact ⟨w₁, hcomes, hm₁.started hhost hspares hrun⟩
  | crossed _ bound hrun ih =>
    obtain ⟨w₁, hcomes, hm₁⟩ := ih
    obtain ⟨w₂, hcomes', hm₂⟩ := hm₁.crossed hhost bound hrun
    exact ⟨w₂, hcomes.trans hcomes', hm₂⟩
  | collected _ hrun ih =>
    obtain ⟨w₁, hcomes, hm₁⟩ := ih
    obtain ⟨w₂, hcomes', hm₂⟩ := hm₁.collected hrun
    exact ⟨w₂, hcomes.trans hcomes', hm₂⟩

/-- **A new machine** has made no calls. -/
theorem Machine.recounts_create {limits : HeapLimits} {options : MonitorOptions} {now : Nat} {sloppy : Bool}
    (hnew : Machine.create limits options now sloppy = .ok m) (forbids : String → Prop) :
    (⟨m.heap, []⟩ : World).Recounts ⟨m.realm, forbids⟩ m := by
  have hheld := Machine.held_create hnew
  refine .idle ?_ rfl rfl hheld.active hheld.frames
  obtain ⟨R, h, hcreate, rfl⟩ := create_eq_ok hnew
  exact Realm.create_lawful hcreate

end ScriptCore
