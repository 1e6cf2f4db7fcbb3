import LichenVm.DepthFirst
import Mathlib.Data.List.Perm.Subperm

open List

namespace LichenVm.CutVerdict

open DepthFirst

variable {V : Type}

/-- The marks of a one-pass verdict: the answer written on each vertex, and the vertices a cut
assumes closed. -/
structure Marks (V : Type) where
  verdict : V → Option Bool := fun _ => none
  assumed : V → Bool := fun _ => false

namespace Marks

/-- How a vertex reads while no more is known of it. -/
def undecided (marks : Marks V) (v : V) : Bool :=
  match marks.verdict v with
  | some undecided => undecided
  | none => !marks.assumed v

/-- A vertex the pass has an answer for, its own or the cut's. -/
def Answered (stack : List V) (marks : Marks V) (v : V) : Prop :=
  (marks.verdict v).isSome ∨ v ∈ stack ∧ marks.assumed v = true

variable {v : V}

section

variable {stack : List V} {marks : Marks V} (h : Answered stack marks v)

include h

theorem Answered.of_decided (decided : marks.undecided v = false) :
    marks.verdict v = some false ∨ marks.verdict v = none ∧ v ∈ stack := by
  unfold undecided at decided
  cases verdict : marks.verdict v with
  | some undecided => rw [verdict] at decided; simp_all
  | none =>
    rcases h with given | ⟨mem, -⟩
    · simp [verdict] at given
    · exact .inr ⟨rfl, mem⟩

theorem Answered.of_undecided (undecided : marks.undecided v) :
    marks.verdict v = some true := by
  unfold Marks.undecided at undecided
  cases verdict : marks.verdict v with
  | some answer => rw [verdict] at undecided; simp_all
  | none =>
    rcases h with given | ⟨-, assumed⟩
    · simp [verdict] at given
    · simp [verdict, assumed] at undecided

end

variable [DecidableEq V]

def assume (marks : Marks V) (v : V) : Marks V :=
  { marks with assumed := Function.update marks.assumed v true }

def settle (marks : Marks V) (v : V) (undecided : Bool) : Marks V where
  verdict := Function.update marks.verdict v (some undecided)
  assumed := Function.update marks.assumed v false

variable (marks : Marks V)

theorem settle_verdict_self (v : V) (undecided : Bool) :
    (marks.settle v undecided).verdict v = some undecided := by simp [settle]

theorem settle_verdict_of_ne {w : V} (undecided : Bool) (h : w ≠ v) :
    (marks.settle v undecided).verdict w = marks.verdict w := by simp [settle, h]

theorem settle_assumed_of_ne {w : V} (undecided : Bool) (h : w ≠ v) :
    (marks.settle v undecided).assumed w = marks.assumed w := by simp [settle, h]

end Marks

/-- What a pass keeps of the marks it is entered with, whatever vertex it visits. -/
structure Kept (stack : List V) (before after : Marks V) : Prop where
  answered : ∀ w, (before.verdict w).isSome → (after.verdict w).isSome
  proven : ∀ w, before.verdict w = some false → after.verdict w = some false
  stacked : ∀ w ∈ stack, after.verdict w = before.verdict w
  assumed : ∀ w ∈ stack, before.assumed w = true → after.assumed w = true

namespace Kept

theorem refl (stack : List V) (marks : Marks V) : Kept stack marks marks :=
  ⟨fun _ h => h, fun _ h => h, fun _ _ => rfl, fun _ _ h => h⟩

variable {stack : List V}

theorem trans {a b c : Marks V} (first : Kept stack a b)
    (second : Kept stack b c) : Kept stack a c where
  answered w h := second.answered w (first.answered w h)
  proven w h := second.proven w (first.proven w h)
  stacked w h := (second.stacked w h).trans (first.stacked w h)
  assumed w h assumed := second.assumed w h (first.assumed w h assumed)

theorem foldl {visit : Marks V → V → Marks V}
    (visits : ∀ marks v, Kept stack marks (visit marks v)) (list : List V) (marks : Marks V) :
    Kept stack marks (list.foldl visit marks) := by
  induction list generalizing marks with
  | nil => exact refl stack marks
  | cons v list ih => exact (visits marks v).trans (ih _)

theorem answer {before after : Marks V} (kept : Kept stack before after) {v : V}
    (h : before.Answered stack v) : after.Answered stack v := by
  rcases h with given | ⟨mem, assumed⟩
  · exact .inl (kept.answered v given)
  · exact .inr ⟨mem, kept.assumed v mem assumed⟩

end Kept

variable [DecidableEq V] (items : V → Option (List V))

/-- One depth-first pass: a proven vertex is left, a vertex under computation is assumed
closed, and any other takes the verdict its items read as once they are all visited. -/
def pass : Nat → List V → Marks V → V → Marks V
  | fuel, stack, marks, v =>
    if marks.verdict v = some false then marks
    else if v ∈ stack then marks.assume v
    else
      match fuel with
      | 0 => marks
      | fuel + 1 =>
        match items v with
        | none => marks.settle v true
        | some list =>
          let marks := list.foldl (pass fuel (v :: stack)) marks
          marks.settle v (list.any marks.undecided)

variable {items}

section Steps

variable {fuel : Nat} {stack : List V} {marks : Marks V} {v : V}

theorem pass_proven (h : marks.verdict v = some false) : pass items fuel stack marks v = marks := by
  unfold pass; simp [h]

theorem pass_cut (h : marks.verdict v ≠ some false) (mem : v ∈ stack) :
    pass items fuel stack marks v = marks.assume v := by
  unfold pass; simp [h, mem]

theorem pass_hole (h : marks.verdict v ≠ some false) (fresh : v ∉ stack) (empty : items v = none) :
    pass items (fuel + 1) stack marks v = marks.settle v true := by
  unfold pass; simp [h, fresh, empty]

theorem pass_list {list : List V} (h : marks.verdict v ≠ some false) (fresh : v ∉ stack)
    (holds : items v = some list) : pass items (fuel + 1) stack marks v =
      (list.foldl (pass items fuel (v :: stack)) marks).settle v
        (list.any (list.foldl (pass items fuel (v :: stack)) marks).undecided) := by
  rw [pass]; simp [h, fresh, holds]

theorem pass_spent (h : marks.verdict v ≠ some false) (fresh : v ∉ stack) :
    pass items 0 stack marks v = marks := by
  unfold pass; simp [h, fresh]

end Steps

namespace Kept

theorem assume (stack : List V) (marks : Marks V) (v : V) : Kept stack marks (marks.assume v) where
  answered w h := h
  proven w h := h
  stacked w _ := rfl
  assumed w _ h := by
    by_cases same : w = v <;> simp [Marks.assume, same, h]

theorem settle {stack : List V} {before after : Marks V} {v : V} (undecided : Bool)
    (kept : Kept (v :: stack) before after) (fresh : v ∉ stack)
    (entered : before.verdict v ≠ some false) :
    Kept stack before (after.settle v undecided) where
  answered w h := by
    by_cases same : w = v
    · rw [same, Marks.settle_verdict_self]; rfl
    · rw [Marks.settle_verdict_of_ne _ _ same]; exact kept.answered w h
  proven w h := by
    have other : w ≠ v := fun same => entered (same ▸ h)
    rw [Marks.settle_verdict_of_ne _ _ other]
    exact kept.proven w h
  stacked w mem := by
    have other : w ≠ v := fun same => fresh (same ▸ mem)
    rw [Marks.settle_verdict_of_ne _ _ other]
    exact kept.stacked w (mem_cons_of_mem v mem)
  assumed w mem h := by
    have other : w ≠ v := fun same => fresh (same ▸ mem)
    rw [Marks.settle_assumed_of_ne _ _ other]
    exact kept.assumed w (mem_cons_of_mem v mem) h

end Kept

theorem pass_kept (fuel : Nat) (stack : List V) (marks : Marks V) (v : V) :
    Kept stack marks (pass items fuel stack marks v) := by
  induction fuel generalizing stack marks v with
  | zero =>
    by_cases proven : marks.verdict v = some false
    · rw [pass_proven proven]; exact .refl stack marks
    · by_cases mem : v ∈ stack
      · rw [pass_cut proven mem]; exact .assume stack marks v
      · rw [pass_spent proven mem]; exact .refl stack marks
  | succ fuel ih =>
    by_cases proven : marks.verdict v = some false
    · rw [pass_proven proven]; exact .refl stack marks
    by_cases mem : v ∈ stack
    · rw [pass_cut proven mem]; exact .assume stack marks v
    cases holds : items v with
    | none =>
      rw [pass_hole proven mem holds]
      exact (Kept.refl (v :: stack) marks).settle true mem proven
    | some list =>
      rw [pass_list proven mem holds]
      exact (Kept.foldl (ih (v :: stack)) list marks).settle _ mem proven

theorem foldl_pass_kept (items : V → Option (List V)) (fuel : Nat) (stack list : List V)
    (marks : Marks V) :
    Kept stack marks (list.foldl (pass items fuel stack) marks) :=
  Kept.foldl (pass_kept fuel stack) list marks

/-- Every proven vertex is closed. -/
def Sound (items : V → Option (List V)) (marks : Marks V) : Prop :=
  ∀ v, marks.verdict v = some false → ¬ Open items v

namespace Sound

/-- Every open list reached has an open item that does not lead back to it. -/
def Grounded (items : V → Option (List V)) (root : V) : Prop :=
  ∀ v list, Reaches items root v → items v = some list → Open items v →
    ∃ w ∈ list, Open items w ∧ ¬ Reaches items w v

/-- What a pass over a grounded graph keeps, however little fuel it has. -/
def Guarded (items : V → Option (List V)) (stack : List V) (marks : Marks V) : Prop :=
  Sound items marks ∧ ∀ v, marks.assumed v = true → v ∈ stack

variable {stack : List V} {marks : Marks V}

omit [DecidableEq V] in
theorem Guarded.push (v : V)
    (guarded : Guarded items stack marks) : Guarded items (v :: stack) marks :=
  ⟨guarded.1, fun w held => mem_cons_of_mem v (guarded.2 w held)⟩

variable {v : V}

theorem Guarded.settle {undecided : Bool}
    (guarded : Guarded items (v :: stack) marks) (closed : undecided = false → ¬ Open items v) :
    Guarded items stack (marks.settle v undecided) := by
  obtain ⟨sound, assumed⟩ := guarded
  constructor
  · intro w proven
    by_cases same : w = v
    · rw [same, Marks.settle_verdict_self] at proven
      exact same ▸ closed (Option.some.inj proven)
    · rw [Marks.settle_verdict_of_ne _ _ same] at proven
      exact sound w proven
  · intro w held
    by_cases same : w = v
    · simp [same, Marks.settle] at held
    · rw [Marks.settle_assumed_of_ne _ _ same] at held
      exact (mem_cons.1 (assumed w held)).resolve_left same

theorem Guarded.cut (mem : v ∈ stack)
    (guarded : Guarded items stack marks) : Guarded items stack (marks.assume v) := by
  refine ⟨guarded.1, fun w held => ?_⟩
  by_cases same : w = v
  · exact same ▸ mem
  · exact guarded.2 w (by simpa [Marks.assume, same] using held)

theorem Guarded.pass {root : V} (grounded : Grounded items root) (fuel : Nat) (reached :
    Reaches items root v)
    (path : ∀ w ∈ stack, Reaches items w v) (guarded : Guarded items stack marks) :
    Guarded items stack (pass items fuel stack marks v) := by
  induction fuel generalizing stack marks v with
  | zero =>
    by_cases proven : marks.verdict v = some false
    · rw [pass_proven proven]; exact guarded
    by_cases mem : v ∈ stack
    · rw [pass_cut proven mem]; exact guarded.cut mem
    · rw [pass_spent proven mem]; exact guarded
  | succ fuel ih =>
    by_cases proven : marks.verdict v = some false
    · rw [pass_proven proven]; exact guarded
    by_cases mem : v ∈ stack
    · rw [pass_cut proven mem]; exact guarded.cut mem
    cases holds : items v with
    | none =>
      rw [pass_hole proven mem holds]
      exact (guarded.push v).settle nofun
    | some list =>
      rw [pass_list proven mem holds]
      have below : ∀ w ∈ v :: stack, Reaches items w v := by
        intro w hw
        rcases mem_cons.1 hw with rfl | hw
        · exact .refl w
        · exact path w hw
      have fold : ∀ (rest : List V) (marks : Marks V), (∀ w ∈ rest, w ∈ list) →
          Guarded items (v :: stack) marks →
          Guarded items (v :: stack)
            (rest.foldl (CutVerdict.pass items fuel (v :: stack)) marks) := by
        intro rest
        induction rest with
        | nil => exact fun _ _ guarded => guarded
        | cons w rest ihr =>
          intro marks sub guarded
          apply ihr _ fun u hu => sub u (mem_cons_of_mem w hu)
          have item : w ∈ list := sub w (by simp)
          exact ih (reached.step holds item) (fun u hu => (below u hu).step holds item) guarded
      have after := fold list marks (fun _ h => h) (guarded.push v)
      apply after.settle
      intro closed hopen
      -- the open item that does not lead back here is no vertex of the stack
      obtain ⟨w, hw, openItem, away⟩ := grounded v list reached holds hopen
      have offStack : w ∉ v :: stack := fun held => away (below w held)
      have reads := any_eq_false.1 closed w hw
      unfold Marks.undecided at reads
      cases verdict : (list.foldl (CutVerdict.pass items fuel (v :: stack)) marks).verdict w with
      | none =>
        have held := after.2 w (by simpa [verdict] using reads)
        exact offStack held
      | some undecided =>
        have answer : undecided = false := by simpa [verdict] using reads
        exact after.1 w (answer ▸ verdict) openItem

end Sound

theorem pass_sound_of_grounded {root : V} (grounded : Sound.Grounded items root) (fuel : Nat) :
    Sound items (pass items fuel [] {} root) :=
  (Sound.Guarded.pass grounded fuel (.refl root) (by simp)
    ⟨fun _ h => (by cases h), fun _ h => (by cases h)⟩).1

/-- A list met under `path` is closed, or has an open item that no frame of its first visit
is computing. -/
def Exits (items : V → Option (List V)) (v : V) (path : List V) : Prop :=
  ∀ list, items v = some list → Open items v → ∃ w ∈ list, Open items w ∧ w ∉ v :: path

/-- What holds of the marks and the tree while every list settled so far exits: `stack` is the
open frames, nearest first. -/
structure Settled (items : V → Option (List V)) (stack : List V) (marks : Marks V)
    (tree : SearchTree V) : Prop where
  sound : Sound items marks
  complete : ∀ v, marks.verdict v = some true → Open items v
  assumed : ∀ v, marks.assumed v = true → v ∈ stack
  stacked : ∀ v ∈ stack, (tree v).isSome
  settled : ∀ v, (tree v).isSome → v ∈ stack ∨ (marks.verdict v).isSome
  met : ∀ v, (marks.verdict v).isSome → (tree v).isSome
  itemsMet : ∀ v list, (marks.verdict v).isSome → items v = some list → ∀ w ∈ list, (tree w).isSome
  openItem : ∀ v list, marks.verdict v = some true → items v = some list →
    ∃ w ∈ list, marks.verdict w = some true
  unsettled : stack.Pairwise fun v w => marks.verdict v = none → marks.verdict w = none
  exits : ∀ v path, (marks.verdict v).isSome → tree v = some path → Exits items v path

/-- An open vertex is proven, and the tree shows why. -/
def Failed (items : V → Option (List V)) (marks : Marks V) (tree : SearchTree V) : Prop :=
  (∃ v, marks.verdict v = some false ∧ Open items v) ∧
    ∃ v path, tree v = some path ∧ ¬ Exits items v path

/-- The pass and the depth-first tree, side by side. -/
def Outcome (items : V → Option (List V)) (stack : List V) (marks : Marks V) (tree : SearchTree V) :
    Prop :=
  Settled items stack marks tree ∨ Failed items marks tree

theorem Failed.pass {marks : Marks V} {tree : SearchTree V} (failed : Failed items marks tree)
    (fuel fuel' : Nat) (stack stack' : List V) (v v' : V) :
    Failed items (pass items fuel stack marks v) (explore items fuel' stack' tree v') := by
  obtain ⟨⟨w, proven, hopen⟩, u, path, first, stuck⟩ := failed
  refine ⟨⟨w, ?_, hopen⟩, u, path, ?_, stuck⟩
  · exact (pass_kept fuel stack marks v).proven w proven
  · exact explore_keeps items fuel' stack' tree v' u path first

namespace Settled

variable {stack : List V} {marks : Marks V} {tree : SearchTree V} {v : V}

omit [DecidableEq V] in
theorem fresh : Settled items [] {} (fun _ => none) where
  sound _ h := by cases h
  complete _ h := by cases h
  assumed _ h := by cases h
  stacked _ h := by cases h
  settled _ h := by cases h
  met _ h := by cases h
  itemsMet _ _ h := by cases h
  openItem _ _ h := by cases h
  unsettled := .nil
  exits _ _ h := by cases h

section

variable (inv : Settled items stack marks tree)

include inv

theorem cut (mem : v ∈ stack) : Settled items stack (marks.assume v) tree where
  sound := inv.sound
  complete := inv.complete
  assumed w held := by
    by_cases same : w = v
    · exact same ▸ mem
    · exact inv.assumed w (by simpa [Marks.assume, same] using held)
  stacked := inv.stacked
  settled := inv.settled
  met := inv.met
  itemsMet := inv.itemsMet
  openItem := inv.openItem
  unsettled := inv.unsettled
  exits := inv.exits

omit [DecidableEq V] in
theorem settled_of_met (fresh : v ∉ stack) (met : (tree v).isSome) : (marks.verdict v).isSome :=
  (inv.settled v met).resolve_left fresh

omit [DecidableEq V] in
theorem unmet_of_unsettled (fresh : v ∉ stack) (none : marks.verdict v = none) :
    tree v = Option.none := by
  cases first : tree v with
  | none => rfl
  | some path =>
    have given := inv.settled_of_met fresh (by rw [first]; rfl)
    rw [none] at given
    cases given

end

/-- The tree as the frame of `v` opens: met now, unless it was met before. -/
def entered (tree : SearchTree V) (stack : List V) (v : V) : SearchTree V :=
  if (tree v).isSome then tree else Function.update tree v (some stack)

theorem entered_of_ne {w : V} (h : w ≠ v) : entered tree stack v w = tree w := by
  unfold entered; split <;> simp [h]

theorem entered_isSome {w : V} (h : (tree w).isSome) : (entered tree stack v w).isSome := by
  unfold entered
  split
  · exact h
  · by_cases same : w = v <;> simp [same, h]

theorem entered_self : (entered tree stack v v).isSome := by
  unfold entered; split <;> simp_all

section

variable (inv : Settled items stack marks tree)
  (itemOf : ∀ w ∈ stack.head?, ∃ list, items w = some list ∧ v ∈ list) (fresh : v ∉ stack)

include inv itemOf fresh

omit [DecidableEq V] in
/-- Under the frame of an item: what is off the stack and not settled has no settled frame
above it. -/
theorem frames_unsettled (none : marks.verdict v = none) :
    ∀ w ∈ stack, marks.verdict w = Option.none := by
  cases stack with
  | nil => exact fun _ h => by cases h
  | cons frame rest =>
    obtain ⟨list, holds, mem⟩ := itemOf frame rfl
    have frameNone : marks.verdict frame = Option.none := by
      cases verdict : marks.verdict frame with
      | none => rfl
      | some answer =>
        have first := inv.itemsMet frame list (by rw [verdict]; rfl) holds v mem
        rw [inv.unmet_of_unsettled fresh none] at first
        cases first
    intro w hw
    rcases mem_cons.1 hw with rfl | hw
    · exact frameNone
    · exact (pairwise_cons.1 inv.unsettled).1 w hw frameNone

theorem push : Settled items (v :: stack) marks (entered tree stack v) where
  sound := inv.sound
  complete := inv.complete
  assumed w held := mem_cons_of_mem v (inv.assumed w held)
  stacked w hw := by
    rcases mem_cons.1 hw with rfl | hw
    · exact entered_self
    · exact entered_isSome (inv.stacked w hw)
  settled w h := by
    by_cases same : w = v
    · exact .inl (same ▸ by simp)
    · rw [entered_of_ne same] at h
      exact (inv.settled w h).imp_left (mem_cons_of_mem v)
  met w h := entered_isSome (inv.met w h)
  itemsMet w list h holds u hu := entered_isSome (inv.itemsMet w list h holds u hu)
  openItem := inv.openItem
  unsettled := pairwise_cons.2
    ⟨fun w hw none => inv.frames_unsettled itemOf fresh none w hw, inv.unsettled⟩
  exits w path h first := by
    refine inv.exits w path h ?_
    have metBefore := inv.met w h
    by_cases same : w = v
    · rwa [same, entered, if_pos (same ▸ metBefore), ← same] at first
    · rwa [entered_of_ne same] at first

end

/-- The frame of `v` closes with a right answer. -/
theorem pop {undecided : Bool} (inv : Settled items (v :: stack) marks tree) (fresh : v ∉ stack)
    (answer : undecided ↔ Open items v)
    (notOpen : undecided = false → marks.verdict v ≠ some true)
    (itemsMet : ∀ list, items v = some list → ∀ w ∈ list, (tree w).isSome)
    (openItem : undecided → ∀ list, items v = some list →
      ∃ w ∈ list, marks.verdict w = some true)
    (exits : ∀ path, tree v = some path → Exits items v path) :
    Settled items stack (marks.settle v undecided) tree where
  sound w proven := by
    by_cases same : w = v
    · rw [same, Marks.settle_verdict_self] at proven
      rw [same, ← answer, Option.some.inj proven]
      simp
    · rw [Marks.settle_verdict_of_ne _ _ same] at proven
      exact inv.sound w proven
  complete w open? := by
    by_cases same : w = v
    · rw [same, Marks.settle_verdict_self] at open?
      exact same ▸ answer.1 (Option.some.inj open?)
    · rw [Marks.settle_verdict_of_ne _ _ same] at open?
      exact inv.complete w open?
  assumed w held := by
    by_cases same : w = v
    · simp [same, Marks.settle] at held
    · rw [Marks.settle_assumed_of_ne _ _ same] at held
      exact (mem_cons.1 (inv.assumed w held)).resolve_left same
  stacked w hw := inv.stacked w (mem_cons_of_mem v hw)
  settled w first := by
    by_cases same : w = v
    · rw [same, Marks.settle_verdict_self]; exact .inr rfl
    · rw [Marks.settle_verdict_of_ne _ _ same]
      exact (inv.settled w first).imp_left fun hw => (mem_cons.1 hw).resolve_left same
  met w given := by
    by_cases same : w = v
    · exact same ▸ inv.stacked v (by simp)
    · rw [Marks.settle_verdict_of_ne _ _ same] at given
      exact inv.met w given
  itemsMet w list given holds := by
    by_cases same : w = v
    · exact itemsMet list (same ▸ holds)
    · rw [Marks.settle_verdict_of_ne _ _ same] at given
      exact inv.itemsMet w list given holds
  openItem w list open? holds := by
    have item : ∃ u ∈ list, marks.verdict u = some true := by
      by_cases same : w = v
      · rw [same, Marks.settle_verdict_self] at open?
        exact openItem (Option.some.inj open?) list (same ▸ holds)
      · rw [Marks.settle_verdict_of_ne _ _ same] at open?
        exact inv.openItem w list open? holds
    obtain ⟨u, hu, verdict⟩ := item
    refine ⟨u, hu, ?_⟩
    by_cases same : u = v
    · cases undecided with
      | true => rw [same, Marks.settle_verdict_self]
      | false => exact absurd (same ▸ verdict) (notOpen rfl)
    · rw [Marks.settle_verdict_of_ne _ _ same, verdict]
  unsettled := by
    have tail := (pairwise_cons.1 inv.unsettled).2
    refine tail.imp_of_mem fun {a b} ha hb unsettled => ?_
    have hav : a ≠ v := fun same => fresh (same ▸ ha)
    have hbv : b ≠ v := fun same => fresh (same ▸ hb)
    rw [Marks.settle_verdict_of_ne _ _ hav, Marks.settle_verdict_of_ne _ _ hbv]
    exact unsettled
  exits w path given first := by
    by_cases same : w = v
    · exact same ▸ exits path (same ▸ first)
    · rw [Marks.settle_verdict_of_ne _ _ same] at given
      exact inv.exits w path given first

theorem hole (inv : Settled items stack marks tree) (fresh : v ∉ stack)
    (itemOf : ∀ w ∈ stack.head?, ∃ list, items w = some list ∧ v ∈ list)
    (empty : items v = none) :
    Settled items stack (marks.settle v true) (entered tree stack v) := by
  apply (inv.push itemOf fresh).pop fresh
  · exact iff_of_true rfl (.hole empty)
  · exact nofun
  · intro list holds; rw [empty] at holds; cases holds
  · intro _ list holds; rw [empty] at holds; cases holds
  · intro path _ list holds; rw [empty] at holds; cases holds

/-- The frame of a list closes on what its items read as: the answer is right unless the list
is open and each of its open items is under computation. -/
theorem close {list : List V} {after : Marks V} {tree' : SearchTree V}
    (inv : Settled items stack marks tree)
    (itemOf : ∀ w ∈ stack.head?, ∃ list, items w = some list ∧ v ∈ list) (fresh : v ∉ stack)
    (proven : marks.verdict v ≠ some false) (holds : items v = some list)
    (visited : Settled items (v :: stack) after tree') (kept : Kept (v :: stack) marks after)
    (grown : ∀ w path, entered tree stack v w = some path → tree' w = some path)
    (answered : ∀ w ∈ list, after.Answered (v :: stack) w) :
    Outcome items stack (after.settle v (list.any after.undecided)) tree' := by
  have same : after.verdict v = marks.verdict v := kept.stacked v (by simp)
  have itemsMet : ∀ other, items v = some other → ∀ w ∈ other, (tree' w).isSome := by
    intro other holds' w hw
    rw [holds] at holds'
    cases holds'
    rcases answered w hw with given | ⟨mem, -⟩
    · exact visited.met w given
    · exact visited.stacked w mem
  -- a first visit settles under the ancestors the tree has for it
  have path_of_first : marks.verdict v = none → ∀ path, tree' v = some path → path = stack := by
    intro none path first
    have met : entered tree stack v v = some stack := by
      simp [entered, inv.unmet_of_unsettled fresh none]
    rw [grown v stack met] at first
    exact (Option.some.inj first).symm
  cases decided : list.any after.undecided with
  | true =>
    obtain ⟨w, hw, undecided⟩ := any_eq_true.1 decided
    have openW := (answered w hw).of_undecided undecided
    left
    apply visited.pop fresh
    · exact iff_of_true rfl (.item holds hw (visited.complete w openW))
    · exact nofun
    · exact itemsMet
    · intro _ other holds'
      rw [holds] at holds'
      cases holds'
      exact ⟨w, hw, openW⟩
    · intro path first
      cases verdict : marks.verdict v with
      | some answer => exact visited.exits v path (by rw [same, verdict]; rfl) first
      | none =>
        rw [path_of_first verdict path first]
        intro other holds' _
        rw [holds] at holds'
        cases holds'
        refine ⟨w, hw, visited.complete w openW, fun mem => ?_⟩
        have unsettled : after.verdict w = none := by
          rcases mem_cons.1 mem with rfl | mem
          · rw [same, verdict]
          · exact (pairwise_cons.1 visited.unsettled).1 w mem (by rw [same, verdict])
        rw [unsettled] at openW
        cases openW
  | false =>
    have closed : ∀ w ∈ list, after.undecided w = false := fun w hw => by
      simpa using any_eq_false.1 decided w hw
    have unsettled : marks.verdict v = none := by
      cases verdict : marks.verdict v with
      | none => rfl
      | some answer =>
        cases answer with
        | false => exact absurd verdict proven
        | true =>
          obtain ⟨w, hw, openW⟩ := visited.openItem v list (by rw [same, verdict]) holds
          have reads := closed w hw
          simp [Marks.undecided, openW] at reads
    by_cases hopen : Open items v
    · right
      refine ⟨⟨v, Marks.settle_verdict_self _ v false, hopen⟩, v, stack, ?_, ?_⟩
      · exact grown v stack (by simp [entered, inv.unmet_of_unsettled fresh unsettled])
      · intro exits
        obtain ⟨w, hw, openW, off⟩ := exits list holds hopen
        rcases (answered w hw).of_decided (closed w hw) with proven | ⟨-, mem⟩
        · exact visited.sound w proven openW
        · exact off mem
    · left
      apply visited.pop fresh
      · exact iff_of_false nofun hopen
      · intro _; rw [same, unsettled]; exact nofun
      · exact itemsMet
      · exact nofun
      · intro path _ other _ hopen'
        exact absurd hopen' hopen

theorem explore_eq (inv : Settled items stack marks tree) (fresh : v ∉ stack) (fuel : Nat) :
    explore items (fuel + 1) stack tree v =
      ((items v).getD []).foldl (explore items fuel (v :: stack)) (entered tree stack v) := by
  cases first : tree v with
  | none => rw [explore_fresh items fuel stack tree v first]; simp [entered, first]
  | some path =>
    have met : (tree v).isSome := by rw [first]; rfl
    rw [explore_met items _ stack tree v met, entered, if_pos met, foldl_explore_met]
    intro w hw
    cases holds : items v with
    | none => rw [holds] at hw; cases hw
    | some list =>
      rw [holds] at hw
      exact inv.itemsMet v list (inv.settled_of_met fresh met) holds w hw

end Settled

section Run

variable {fuel : Nat} {stack : List V} {marks : Marks V} {tree : SearchTree V}
  (U : List V)

/-- The fuel left covers the vertices not on the stack. -/
structure Room (U : List V) (fuel : Nat) (stack : List V) (v : V) : Prop where
  nodup : stack.Nodup
  stacked : ∀ w ∈ stack, w ∈ U
  vertex : v ∈ U
  fuel : U.length ≤ fuel + stack.length

variable {U} {v : V}

omit [DecidableEq V] in
theorem Room.not_spent (room : Room U 0 stack v) : v ∈ stack := by
  by_contra fresh
  have nodup : (v :: stack).Nodup := nodup_cons.2 ⟨fresh, room.nodup⟩
  have inside : v :: stack ⊆ U := by
    intro w hw
    rcases mem_cons.1 hw with rfl | hw
    · exact room.vertex
    · exact room.stacked w hw
  have shorter := (subperm_of_subset nodup inside).length_le
  have bound := room.fuel
  simp at shorter
  omega

omit [DecidableEq V] in
theorem Room.push {w : V} (room : Room U (fuel + 1) stack v) (fresh : v ∉ stack) (hw : w ∈ U) :
    Room U fuel (v :: stack) w where
  nodup := nodup_cons.2 ⟨fresh, room.nodup⟩
  stacked u hu := by
    rcases mem_cons.1 hu with rfl | hu
    · exact room.vertex
    · exact room.stacked u hu
  vertex := hw
  fuel := by
    have bound := room.fuel
    simp only [length_cons]
    omega

theorem pass_answered (room : Room U fuel stack v) : (pass items fuel stack marks v).Answered stack v := by
  by_cases proven : marks.verdict v = some false
  · rw [pass_proven proven]; exact .inl (by rw [proven]; rfl)
  by_cases mem : v ∈ stack
  · rw [pass_cut proven mem]; exact .inr ⟨mem, by simp [Marks.assume]⟩
  cases fuel with
  | zero => exact absurd room.not_spent mem
  | succ fuel =>
    left
    cases holds : items v with
    | none => rw [pass_hole proven mem holds, Marks.settle_verdict_self]; rfl
    | some list => rw [pass_list proven mem holds, Marks.settle_verdict_self]; rfl

theorem foldl_pass_answered {list : List V} (room : ∀ w ∈ list, Room U fuel stack w) :
    ∀ w ∈ list, (list.foldl (pass items fuel stack) marks).Answered stack w := by
  induction list generalizing marks with
  | nil => exact fun _ h => by cases h
  | cons u list ih =>
    intro w hw
    rcases mem_cons.1 hw with rfl | hw
    · exact (foldl_pass_kept items fuel stack list _).answer (pass_answered (room w (by simp)))
    · exact ih (fun x hx => room x (mem_cons_of_mem u hx)) w hw

/-- One visit, with the tree extended beside it. -/
theorem pass_outcome (closed : ∀ w ∈ U, ∀ list, items w = some list → ∀ u ∈ list, u ∈ U)
    (room : Room U fuel stack v)
    (itemOf : ∀ w ∈ stack.head?, ∃ list, items w = some list ∧ v ∈ list)
    (outcome : Outcome items stack marks tree) :
    Outcome items stack (pass items fuel stack marks v) (explore items fuel stack tree v) := by
  induction fuel generalizing stack marks tree v with
  | zero =>
    rcases outcome with inv | failed
    · have mem := room.not_spent
      by_cases proven : marks.verdict v = some false
      · rw [pass_proven proven]; exact .inl inv
      · rw [pass_cut proven mem]; exact .inl (inv.cut mem)
    · exact .inr (failed.pass 0 0 stack stack v v)
  | succ fuel ih =>
    rcases outcome with inv | failed
    swap
    · exact .inr (failed.pass _ _ stack stack v v)
    by_cases proven : marks.verdict v = some false
    · rw [pass_proven proven, explore_met items _ stack tree v (inv.met v (by rw [proven]; rfl))]
      exact .inl inv
    by_cases mem : v ∈ stack
    · rw [pass_cut proven mem, explore_met items _ stack tree v (inv.stacked v mem)]
      exact .inl (inv.cut mem)
    rw [inv.explore_eq mem]
    cases holds : items v with
    | none =>
      rw [pass_hole proven mem holds]
      exact .inl (inv.hole mem itemOf holds)
    | some list =>
      rw [pass_list proven mem holds, Option.getD_some]
      have roomOf : ∀ w ∈ list, Room U fuel (v :: stack) w := fun w hw =>
        room.push mem (closed v room.vertex list holds w hw)
      have fold : ∀ (rest : List V) (marks : Marks V) (tree : SearchTree V), (∀ w ∈ rest, w ∈ list) →
          Outcome items (v :: stack) marks tree →
          Outcome items (v :: stack) (rest.foldl (pass items fuel (v :: stack)) marks)
            (rest.foldl (explore items fuel (v :: stack)) tree) := by
        intro rest
        induction rest with
        | nil => exact fun _ _ _ outcome => outcome
        | cons w rest ihr =>
          intro marks tree sub outcome
          apply ihr _ _ fun u hu => sub u (mem_cons_of_mem w hu)
          have item : w ∈ list := sub w (by simp)
          exact ih (roomOf w item) (fun u hu => ⟨list, by simp_all⟩) outcome
      have kept := foldl_pass_kept items fuel (v :: stack) list marks
      rcases fold list marks _ (fun _ h => h) (.inl (inv.push itemOf mem)) with visited | failed
      · exact inv.close itemOf mem proven holds visited kept
          (foldl_explore_keeps items fuel (v :: stack) list _) (foldl_pass_answered roomOf)
      · right
        obtain ⟨⟨w, false?, hopen⟩, shown⟩ := failed
        have other : w ≠ v := by
          intro same
          rw [same, kept.stacked v (by simp)] at false?
          exact proven false?
        exact ⟨⟨w, by rw [Marks.settle_verdict_of_ne _ _ other, false?], hopen⟩, shown⟩

end Run

theorem pass_sound_iff {U : List V} {fuel : Nat} {root : V}
    (closed : ∀ w ∈ U, ∀ list, items w = some list → ∀ u ∈ list, u ∈ U) (rooted : root ∈ U)
    (enough : U.length ≤ fuel) :
    Sound items (pass items fuel [] {} root) ↔
      ∀ v path, explore items fuel [] (fun _ => none) root v = some path → Exits items v path := by
  have room : Room U fuel [] root := ⟨.nil, by simp, rooted, by simpa using enough⟩
  have fresh : Settled items [] {} (fun _ => none) := Settled.fresh
  rcases pass_outcome closed room (by simp) (.inl fresh)
    with inv | ⟨⟨w, proven, hopen⟩, v, path, first, stuck⟩
  · refine iff_of_true inv.sound fun v path first => ?_
    have given := inv.settled_of_met (by simp) (by rw [first]; rfl)
    exact inv.exits v path given first
  · refine iff_of_false (fun sound => sound w proven hopen) fun exits => ?_
    exact stuck (exits v path first)

end LichenVm.CutVerdict
