import ScriptCore.Proofs.Number.Doubles
import ScriptCore.Proofs.Drive.Routine

/-! # Equality with conversion

Loose equality goes round by round. A round answers, or gives simpler operands to another one: a boolean or a string
becomes a number, an object becomes a primitive. Which of the two operands it is does not depend on the side on which
it stands, so equality is symmetric in all that it does.

* `Proc.Delivers`, `delivers_toPrimitive`: conversions deliver primitives.
* `looseRound`, `looseRounds_succ`: one round, and that equality is made of such rounds.
* `LooseRun`: **the rounds of an equality**, with the objects that they convert.
* `looseEquals_symmetric`: both sides take the same rounds, at most four, and convert at most one object. -/

namespace ScriptCore

variable {α β σ : Type} {E : Engine} {a b : Value} {m m' : Machine} {n k j : Nat} {o : Outcome Machine Bool}

/-! ### Conversions deliver primitives -/

/-- What the procedure delivers satisfies `P`, whatever state it starts in. -/
def Proc.Delivers (P : α → Prop) (p : Proc σ α) : Prop := ∀ s x s', p s = .done x s' → P x

namespace Proc.Delivers

variable {P : α → Prop} {x : α}

theorem pure (hx : P x) : Delivers P (Pure.pure x : Proc σ α) := by
  rintro s y s' ⟨⟩
  exact hx

theorem fail (e : Error) : Delivers P (throw e : Proc σ α) := by
  rintro s y s' ⟨⟩

theorem bind {p : Proc σ β} {f : β → Proc σ α} (hf : ∀ y, Delivers P (f y)) : Delivers P (p >>= f) := by
  intro s x s' hdone
  rw [Proc.bind_eq] at hdone
  cases hp : p s with
  | done y s₁ => rw [hp] at hdone; exact hf y s₁ x s' hdone
  | failed e s₁ => rw [hp] at hdone; cases hdone
  | stalled => rw [hp] at hdone; cases hdone

theorem ite {c : Prop} [Decidable c] {p q : Proc σ α} (hp : c → Delivers P p) (hq : ¬ c → Delivers P q) :
    Delivers P (if c then p else q) := by
  split
  · next hc => exact hp hc
  · next hc => exact hq hc

end Proc.Delivers

theorem delivers_convertBy (E : Engine) (v : Value) : ∀ (keys : List PropertyKey) (tried : Bool),
    Proc.Delivers (·.isObject = false) (convertBy E v keys tried)
  | [], tried => .bind fun text => .ite (fun _ => .fail _) fun _ => .bind fun s => .pure rfl
  | key :: keys, tried => by
    refine .bind fun method => .bind fun callable => .ite (fun _ => .bind fun result => ?_) fun _ =>
      delivers_convertBy E v keys tried
    refine .ite (fun _ => delivers_convertBy E v keys true) fun hprimitive => .pure ?_
    simpa using hprimitive

/-- **Conversions deliver primitives**, whatever the methods of objects do. -/
theorem delivers_toPrimitive (E : Engine) (v : Value) (hint : Hint) :
    Proc.Delivers (·.isObject = false) (toPrimitive E v hint) := by
  cases v with
  | object o => exact .bind fun names => delivers_convertBy E _ _ _
  | _ => exact .pure rfl

/-! ### Rounds -/

/-- An object is converted to a primitive. -/
structure Conversion where
  object : ObjectRef
  hint : Hint

/-- The object that a round of equality converts, if any. -/
def looseConversion? : Value → Value → Option Conversion
  | .object x, .string _ | .string _, .object x => some ⟨x, .string⟩
  | .object x, .number _ | .number _, .object x => some ⟨x, .default⟩
  | _, _ => none

/-- What a round of equality comes to. -/
inductive LooseRound where
  | answer (r : Bool)
  /-- There is another round, with these operands. -/
  | again (a b : Value)

/-- A round in which the object among the operands has become the primitive `p`. -/
def LooseRound.converted (a b p : Value) : LooseRound :=
  match a, b, p with
  | .object _, .string y, .string x | .string x, .object _, .string y => .answer (x == y)
  | .object _, b, p => .again p b
  | a, _, p => .again a p

/-- A round that converts no object. It runs no code. -/
def looseSettle (a b : Value) : Run LooseRound :=
  match a, b with
  | .undefined, .undefined | .null, .null | .undefined, .null | .null, .undefined => return .answer true
  | .bool x, .bool y => return .answer (x == y)
  | .number x, .number y => return .answer (x == y)
  | .string x, .string y => return .answer (x == y)
  | .object x, .object y => return .answer (x == y)
  | .number _, .string _ => do return .again a (.number (← Run.readHeap fun h => h.numberOf b))
  | .string _, .number _ => do return .again (.number (← Run.readHeap fun h => h.numberOf a)) b
  | .bool _, _ => do return .again (.number (← Run.readHeap fun h => h.numberOf a)) b
  | _, .bool _ => do return .again a (.number (← Run.readHeap fun h => h.numberOf b))
  | _, _ => return .answer false

/-- A round of equality. Code runs in it only to convert `looseConversion? a b`. -/
def looseRound (E : Engine) (a b : Value) : Run LooseRound :=
  match looseConversion? a b with
  | some c => do return .converted a b (← toPrimitive E (.object c.object) c.hint)
  | none => looseSettle a b

/-- What follows a round. -/
def LooseRound.proceed (next : Value → Value → Run Bool) : LooseRound → Run Bool
  | .answer r => return r
  | .again a b => next a b

/-- **Equality is made of rounds.** -/
theorem looseRounds_succ (E : Engine) (n : Nat) (a b : Value) :
    looseRounds E (n + 1) a b = looseRound E a b >>= LooseRound.proceed (looseRounds E n) := by
  have converting : ∀ c, looseConversion? a b = some c → looseRound E a b >>= LooseRound.proceed (looseRounds E n) =
      toPrimitive E (.object c.object) c.hint >>= fun p => (LooseRound.converted a b p).proceed (looseRounds E n) := by
    intro c hc
    unfold looseRound
    rw [hc]
    simp only [bind_assoc, pure_bind]
  have settling : ∀ (f : Heap → Except Error Float) (g : Float → LooseRound),
      looseRound E a b = (Run.readHeap f >>= fun x => pure (g x)) →
      looseRound E a b >>= LooseRound.proceed (looseRounds E n) =
        Run.readHeap f >>= fun x => (g x).proceed (looseRounds E n) := by
    intro f g hround
    rw [hround]
    simp only [bind_assoc, pure_bind]
  cases a with
  | undefined | null =>
    cases b with
    | bool y => exact (settling _ _ rfl).symm
    | _ => rfl
  | bool x =>
    cases b with
    | bool y => rfl
    | _ => exact (settling _ _ rfl).symm
  | number x =>
    cases b with
    | bool y | string y => exact (settling _ _ rfl).symm
    | object y =>
      rw [converting ⟨y, .default⟩ rfl]
      exact bind_congr fun p => by cases p <;> rfl
    | _ => rfl
  | string x =>
    cases b with
    | bool y | number y => exact (settling _ _ rfl).symm
    | object y =>
      rw [converting ⟨y, .string⟩ rfl]
      exact bind_congr fun p => by cases p <;> rfl
    | _ => rfl
  | object x =>
    cases b with
    | bool y => exact (settling _ _ rfl).symm
    | number y =>
      rw [converting ⟨x, .default⟩ rfl]
      exact bind_congr fun p => by cases p <;> rfl
    | string y =>
      rw [converting ⟨x, .string⟩ rfl]
      exact bind_congr fun p => by cases p <;> rfl
    | _ => rfl

/-- **The rounds of an equality** that starts on `m` with the operands `a` and `b`: how many there are, which objects
they convert, one after the other, and how the last one ends. -/
inductive LooseRun (E : Engine) : Value → Value → Machine → Nat → List Conversion → Outcome Machine Bool → Prop where
  | answer {a b : Value} {m m' : Machine} {r : Bool} (round : looseRound E a b m = .done (.answer r) m') :
      LooseRun E a b m 1 (looseConversion? a b).toList (.done r m')
  | again {a b a' b' : Value} {m m' : Machine} {n : Nat} {cs : List Conversion} {o : Outcome Machine Bool}
      (round : looseRound E a b m = .done (.again a' b') m') (rest : LooseRun E a' b' m' n cs o) :
      LooseRun E a b m (n + 1) ((looseConversion? a b).toList ++ cs) o
  | failed {a b : Value} {m m' : Machine} {e : Error} (round : looseRound E a b m = .failed e m') :
      LooseRun E a b m 1 (looseConversion? a b).toList (.failed e m')
  | stalled {a b : Value} {m : Machine} (round : looseRound E a b m = .stalled) :
      LooseRun E a b m 1 (looseConversion? a b).toList .stalled

/-- **Equality ends as its rounds do**, if it may take so many. -/
theorem LooseRun.looseRounds_eq {cs : List Conversion} (hr : LooseRun E a b m n cs o) (k : Nat) :
    looseRounds E (n + k) a b m = o := by
  induction hr with
  | answer round | failed round | stalled round => rw [Nat.add_comm, looseRounds_succ, Proc.bind_eq, round]; rfl
  | again round rest ih =>
    rw [Nat.add_right_comm, looseRounds_succ, Proc.bind_eq, round]
    exact ih

/-! ### Both sides take the same rounds -/

theorem looseConversion?_comm (a b : Value) : looseConversion? b a = looseConversion? a b := by
  cases a <;> cases b <;> rfl

/-- The same with the operands exchanged. -/
def LooseRound.mirror : LooseRound → LooseRound
  | .answer r => .answer r
  | .again a b => .again b a

theorem LooseRound.converted_comm {c : Conversion} (hc : looseConversion? a b = some c) (p : Value) :
    converted b a p = (converted a b p).mirror := by
  cases a with
  | object x =>
    cases b with
    | string y => cases p <;> simp [converted, mirror, BEq.comm]
    | number y => cases p <;> rfl
    | _ => cases hc
  | string x =>
    cases b with
    | object y => cases p <;> simp [converted, mirror, BEq.comm]
    | _ => cases hc
  | number x =>
    cases b with
    | object y => cases p <;> rfl
    | _ => cases hc
  | _ => cases hc

theorem looseSettle_comm (a b : Value) : looseSettle b a = LooseRound.mirror <$> looseSettle a b := by
  have answering : ∀ {r r' : Bool}, r = r' →
      (pure (.answer r) : Run LooseRound) = LooseRound.mirror <$> pure (.answer r') := by
    rintro r _ rfl
    rfl
  have reading : ∀ (f : Heap → Except Error Float) (g : Float → LooseRound),
      (do return (g (← Run.readHeap f)).mirror : Run LooseRound) =
        LooseRound.mirror <$> (do return g (← Run.readHeap f) : Run LooseRound) := by
    intro f g
    simp only [map_bind, map_pure]
  cases a with
  | undefined | null => cases b <;> rfl
  | bool x =>
    cases b with
    | bool y => exact answering BEq.comm
    | _ => rfl
  | number x =>
    cases b with
    | number y => exact answering (Number.beq_comm y x)
    | string y => exact reading _ fun z => .again (.number x) (.number z)
    | _ => rfl
  | string x =>
    cases b with
    | number y => exact reading _ fun z => .again (.number z) (.number y)
    | string y => exact answering BEq.comm
    | _ => rfl
  | object x =>
    cases b with
    | object y => exact answering BEq.comm
    | _ => rfl

/-- **A round and its mirror image** do the same. -/
theorem looseRound_comm (E : Engine) (a b : Value) : looseRound E b a = LooseRound.mirror <$> looseRound E a b := by
  unfold looseRound
  rw [looseConversion?_comm]
  cases hc : looseConversion? a b with
  | none => exact looseSettle_comm a b
  | some c =>
    rw [map_bind]
    refine bind_congr fun p => ?_
    rw [map_pure, LooseRound.converted_comm hc]

theorem looseRound_comm_done {x : LooseRound} (hround : looseRound E a b m = .done x m') :
    looseRound E b a m = .done x.mirror m' := by
  rw [looseRound_comm, map_eq_pure_bind, Proc.bind_eq, hround]
  rfl

/-- **Both sides take the same rounds.** -/
theorem LooseRun.comm {cs : List Conversion} (hr : LooseRun E a b m n cs o) : LooseRun E b a m n cs o := by
  induction hr with
  | answer round => exact looseConversion?_comm _ _ ▸ .answer (looseRound_comm_done round)
  | again round rest ih => exact looseConversion?_comm _ _ ▸ .again (looseRound_comm_done round) ih
  | failed round =>
    refine looseConversion?_comm _ _ ▸ .failed ?_
    rw [looseRound_comm, map_eq_pure_bind, Proc.bind_eq, round]
    rfl
  | stalled round =>
    refine looseConversion?_comm _ _ ▸ .stalled ?_
    rw [looseRound_comm, map_eq_pure_bind, Proc.bind_eq, round]
    rfl

/-! ### There are at most four rounds -/

/-- The equality ends after at most `k` rounds, which convert at most `j` objects. -/
def LooselySettles (E : Engine) (a b : Value) (m : Machine) (k j : Nat) : Prop :=
  ∃ n cs o, n ≤ k ∧ cs.length ≤ j ∧ LooseRun E a b m n cs o

namespace LooselySettles

theorem comm (hs : LooselySettles E a b m k j) : LooselySettles E b a m k j := by
  obtain ⟨n, cs, o, hn, hcs, hr⟩ := hs
  exact ⟨n, cs, o, hn, hcs, hr.comm⟩

/-- After a round that converts no object. -/
theorem settled (hc : looseConversion? a b = none)
    (hnext : ∀ a' b' m', looseSettle a b m = .done (.again a' b') m' → LooselySettles E a' b' m' k j) :
    LooselySettles E a b m (k + 1) j := by
  have hround : looseRound E a b = looseSettle a b := by
    unfold looseRound
    rw [hc]
  cases hr : looseRound E a b m with
  | failed e m' => exact ⟨1, _, _, by omega, by simp [hc], .failed hr⟩
  | stalled => exact ⟨1, _, _, by omega, by simp [hc], .stalled hr⟩
  | done x m' =>
    cases x with
    | answer r => exact ⟨1, _, _, by omega, by simp [hc], .answer hr⟩
    | again a' b' =>
      obtain ⟨n, cs, o, hn, hcs, hrest⟩ := hnext a' b' m' (hround ▸ hr)
      exact ⟨n + 1, _, o, by omega, by simpa [hc] using hcs, .again hr hrest⟩

/-- After a round that converts an object: it has become a primitive. -/
theorem converted {c : Conversion} (hc : looseConversion? a b = some c)
    (hnext : ∀ p a' b' m', p.isObject = false → LooseRound.converted a b p = .again a' b' →
      LooselySettles E a' b' m' k j) : LooselySettles E a b m (k + 1) (j + 1) := by
  have hround : looseRound E a b =
      (do return .converted a b (← toPrimitive E (.object c.object) c.hint) : Run LooseRound) := by
    unfold looseRound
    rw [hc]
  have hprimitive := delivers_toPrimitive E (.object c.object) c.hint m
  have hm : looseRound E a b m = (toPrimitive E (.object c.object) c.hint m).bind
      fun p => pure (.converted a b p) := by rw [hround, Proc.bind_eq]
  cases hp : toPrimitive E (.object c.object) c.hint m with
  | failed e m' => rw [hp] at hm; exact ⟨1, _, _, by omega, by simp [hc], .failed hm⟩
  | stalled => rw [hp] at hm; exact ⟨1, _, _, by omega, by simp [hc], .stalled hm⟩
  | done p m' =>
    rw [hp] at hm
    change _ = Outcome.done (LooseRound.converted a b p) m' at hm
    cases hx : LooseRound.converted a b p with
    | answer r => exact ⟨1, _, _, by omega, by simp [hc], .answer (hm.trans (by rw [hx]))⟩
    | again a' b' =>
      obtain ⟨n, cs, o, hn, hcs, hrest⟩ := hnext p a' b' m' (hprimitive p m' hp) hx
      exact ⟨n + 1, _, o, by omega, by simpa [hc] using hcs, .again (hm.trans (by rw [hx])) hrest⟩

theorem mono {k' j' : Nat} (hs : LooselySettles E a b m k j) (hk : k ≤ k') (hj : j ≤ j') :
    LooselySettles E a b m k' j' := by
  obtain ⟨n, cs, o, hn, hcs, hr⟩ := hs
  exact ⟨n, cs, o, hn.trans hk, hcs.trans hj, hr⟩

/-- A round that answers is the last one. -/
theorem last (hc : looseConversion? a b = none) (hround : looseSettle a b m = .done (.answer r) m) :
    LooselySettles E a b m 1 0 :=
  settled hc fun a' b' m' hr => by rw [hround] at hr; cases hr

/-- A boolean or a string became a number. -/
theorem read {f : Heap → Except Error Float} {g : Float → LooseRound} (hc : looseConversion? a b = none)
    (hround : looseSettle a b = (do return g (← Run.readHeap f) : Run LooseRound))
    (hnext : ∀ x a' b', g x = .again a' b' → LooselySettles E a' b' m k j) : LooselySettles E a b m (k + 1) j := by
  refine settled hc fun a' b' m' hr => ?_
  rw [hround, Run.readHeap_bind] at hr
  cases hx : f m.heap with
  | error e => rw [hx] at hr; cases hr
  | ok x =>
    rw [hx] at hr
    obtain ⟨hagain, rfl⟩ := Outcome.done.inj hr
    exact hnext x a' b' hagain

/-- A number and a primitive. -/
theorem number (x : Float) (hb : b.isObject = false) : LooselySettles E (.number x) b m 2 0 := by
  cases b with
  | undefined | null => exact (last rfl rfl).mono (by omega) le_rfl
  | number y => exact (last rfl rfl).mono (by omega) le_rfl
  | bool y | string y =>
    refine read rfl rfl fun z a' b' hagain => ?_
    cases hagain
    exact last rfl rfl
  | object y => cases hb

/-- Two primitives. -/
theorem primitives (ha : a.isObject = false) (hb : b.isObject = false) : LooselySettles E a b m 3 0 := by
  have mirrored : ∀ (v : Value) (y : Float), v.isObject = false → LooselySettles E v (.number y) m 2 0 :=
    fun v y hv => (number y hv).comm
  cases a with
  | number x => exact (number x hb).mono (by omega) le_rfl
  | bool x =>
    cases b with
    | bool y => exact (last rfl rfl).mono (by omega) le_rfl
    | _ =>
      refine read rfl rfl fun z a' b' hagain => ?_
      cases hagain
      exact number z hb
  | undefined | null | string x =>
    cases b with
    | bool y =>
      refine read rfl rfl fun z a' b' hagain => ?_
      cases hagain
      exact mirrored _ z rfl
    | number y => exact (mirrored _ y rfl).mono (by omega) le_rfl
    | object y => cases hb
    | _ => exact (last rfl rfl).mono (by omega) le_rfl
  | object x => cases ha

/-- An object and a number: the object is converted. -/
theorem object_number (x : ObjectRef) (y : Float) : LooselySettles E (.object x) (.number y) m 3 1 := by
  refine converted (c := ⟨x, .default⟩) rfl fun p a' b' m' hp hagain => ?_
  have hnext : LooseRound.converted (.object x) (.number y) p = .again p (.number y) := by cases p <;> rfl
  cases hnext.symm.trans hagain
  exact (number y hp).comm

/-- An object and any other value. -/
theorem object (x : ObjectRef) (b : Value) : LooselySettles E (.object x) b m 4 1 := by
  cases b with
  | number y => exact (object_number x y).mono (by omega) le_rfl
  | bool y =>
    refine read rfl rfl fun z a' b' hagain => ?_
    cases hagain
    exact object_number x z
  | string y =>
    refine converted (c := ⟨x, .string⟩) rfl fun p a' b' m' hp hagain => ?_
    cases p with
    | string z => cases hagain
    | object z => cases hp
    | _ =>
      cases hagain
      exact primitives rfl rfl
  | _ => exact (last rfl rfl).mono (by omega) (by omega)

/-- **There are at most four rounds**, which convert at most one object. -/
theorem any (E : Engine) (a b : Value) (m : Machine) : LooselySettles E a b m 4 1 := by
  cases ha : a.isObject with
  | true =>
    cases a with
    | object x => exact object x b
    | _ => cases ha
  | false =>
    cases hb : b.isObject with
    | true =>
      cases b with
      | object y => exact (object y a).comm
      | _ => cases hb
    | false => exact (primitives ha hb).mono (by omega) (by omega)

end LooselySettles

/-! ### The result -/

/-- Values of one kind. -/
def Value.SameKind : Value → Value → Prop
  | .undefined, .undefined | .null, .null | .bool _, .bool _ | .number _, .number _ | .string _, .string _
  | .object _, .object _ => True
  | _, _ => False

/-- **Equality with conversion is symmetric in all that it does**, whatever the methods of objects do. From any machine,
`a` against `b` and `b` against `a` take the same rounds, at most four, and convert the same objects, at most one and
that once; they end alike: with the same answer or the same error, on the same machine. Values of one kind are compared
without conversion, and the machine stays as it is. -/
theorem looseEquals_symmetric (E : Engine) (a b : Value) (m : Machine) :
    looseEquals E a b m = looseEquals E b a m ∧
    (∃ n cs, n ≤ 4 ∧ cs.length ≤ 1 ∧ LooseRun E a b m n cs (looseEquals E a b m) ∧
      LooseRun E b a m n cs (looseEquals E b a m)) ∧
    (a.SameKind b → looseEquals E a b m = .done (a.strictEquals b) m) := by
  obtain ⟨n, cs, o, hn, hcs, hr⟩ := LooselySettles.any E a b m
  have ends : ∀ {a b}, LooseRun E a b m n cs o → looseEquals E a b m = o := by
    intro a b hr
    have hrounds := hr.looseRounds_eq (4 - n)
    rwa [Nat.add_sub_cancel' hn] at hrounds
  have hleft := ends hr
  have hright := ends hr.comm
  refine ⟨hleft.trans hright.symm, ⟨n, cs, hn, hcs, hleft ▸ hr, hright ▸ hr.comm⟩, fun hkind => ?_⟩
  cases a <;> cases b <;> first | rfl | exact hkind.elim

end ScriptCore
