import LichenVm.LinkedList
import Mathlib.Tactic.Ring

open List

namespace LexicalScope

open LinkedList

/-- A node of an immutable tree of nested scopes, each named by the function it belongs
to. A scope is built once, under the scope around it, and never moves. -/
inductive Scope (F : Type) where
  | top (function : F)
  | under (function : F) (parent : Scope F)
  deriving DecidableEq

/-- The ancestor levels the lifting table keeps: enough for any depth a `u32` can name. -/
def LEVELS : Nat := 32

namespace Scope

variable {F : Type}

def function : Scope F → F
  | top function => function
  | under function _ => function

def parent : Scope F → Option (Scope F)
  | top _ => none
  | under _ parent => some parent

/-- The nesting depth: a top-level scope's depth is `0`. -/
def depth : Scope F → Nat
  | top _ => 0
  | under _ parent => parent.depth + 1

/-- The lifting table's entry `level`: the `2^level`-th ancestor, read off the ancestor's
own table. -/
def up (scope : Scope F) : Nat → Option (Scope F)
  | 0 => scope.parent
  | level + 1 => (scope.up level).bind fun half => half.up level

/-- The scope of `function`, hanging under `parent`. A depth past a `u32` overflows. -/
def child (function : F) : Option (Scope F) → Option (Scope F)
  | none => some (top function)
  | some parent => if parent.depth + 1 < 2 ^ LEVELS then some (under function parent) else none

/-- Climb by `difference`, one table read for each of its bits from `level` on. -/
def lift (levels difference level : Nat) (scope : Scope F) : Option (Scope F) :=
  match levels with
  | 0 => if difference = 0 then some scope else none
  | levels + 1 =>
    if difference = 0 then some scope
    else
      let climbed := if difference % 2 = 1 then scope.up level else some scope
      climbed.bind fun scope => lift levels (difference / 2) (level + 1) scope

variable [DecidableEq F]

/-- Whether this scope is an ancestor-or-self of `other`, by the functions they name. -/
def isAncestorOrSelf (scope other : Scope F) : Bool :=
  if scope.depth > other.depth then false
  else
    match lift LEVELS (other.depth - scope.depth) 0 other with
    | none => false
    | some current => current.function = scope.function

/-- Two scopes of one depth climb together, the longest jumps first, while they stay apart. -/
def climbApart : Nat → Scope F → Scope F → Scope F × Scope F
  | 0, x, y => (x, y)
  | level + 1, x, y =>
    match x.up level, y.up level with
    | some xa, some ya =>
      if xa.function ≠ ya.function then climbApart level xa ya else climbApart level x y
    | _, _ => climbApart level x y

/-- The nearest common ancestor of two scopes; `none` when they are in different trees. -/
def lca (left right : Scope F) : Option (Scope F) :=
  let (x, y) := if left.depth < right.depth then (right, left) else (left, right)
  -- The deeper scope climbs to the shallower one's depth.
  match lift LEVELS (x.depth - y.depth) 0 x with
  | none => none
  | some x =>
    if x.function = y.function then some x
    else (climbApart LEVELS x y).1.up 0

end Scope

/-- The summary of two class summaries. The virtual root absorbs every other one. -/
def mergeSummaries {F : Type} [DecidableEq F] :
    Option (Scope F) → Option (Scope F) → Option (Scope F)
  | some left, some right => Scope.lca left right
  | _, _ => none

/-- The summary a fold over the members' owner scopes reaches. -/
def foldSummary {F : Type} [DecidableEq F] : List (Option (Scope F)) → Option (Scope F)
  | [] => none
  | first :: rest => rest.foldl mergeSummaries first

/-- The functions a scope is nested in, its own first. -/
def Scope.chain {F : Type} : Scope F → List F
  | .top function => [function]
  | .under function parent => function :: parent.chain

/-- The functions a summary is nested in: none for the virtual root. -/
def path {F : Type} : Option (Scope F) → List F
  | none => []
  | some scope => scope.chain

/-- `nearest` is the nearest common ancestor of `paths`: a path encloses it exactly when it
encloses each of them. -/
def IsNearest {F : Type} (nearest : List F) (paths : List (List F)) : Prop :=
  ∀ outer, outer <:+ nearest ↔ ∀ path ∈ paths, outer <:+ path

section Laws

variable {F : Type} (scope : Scope F)

theorem Scope.chain_eq_cons : scope.chain = scope.function :: path scope.parent := by
  cases scope <;> rfl

theorem Scope.length_chain : scope.chain.length = scope.depth + 1 := by
  induction scope with
  | top function => rfl
  | under function parent ih => simp [chain, depth, ih]

theorem Scope.path_up (level : Nat) : path (scope.up level) = scope.chain.drop (2 ^ level) := by
  induction level generalizing scope with
  | zero => rw [up, chain_eq_cons]; rfl
  | succ level ih =>
    have halves : 2 ^ (level + 1) = 2 ^ level + 2 ^ level := by omega
    rw [halves, ← drop_drop, ← ih scope]
    cases half : scope.up level with
    | none => simp [up, half, path]
    | some middle => simpa [up, half, path] using ih middle

/-- A climb whose length the table's levels cover skips exactly that many scopes. -/
theorem Scope.path_lift (levels difference level : Nat) (scope : Scope F)
    (covered : difference < 2 ^ levels) :
    path (lift levels difference level scope) = scope.chain.drop (difference * 2 ^ level) := by
  induction levels generalizing difference level scope with
  | zero =>
    obtain rfl : difference = 0 := by simpa using covered
    simp [lift, path]
  | succ levels ih =>
    by_cases zero : difference = 0
    · subst zero
      simp [lift, path]
    · have half : difference / 2 < 2 ^ levels := by
        rw [Nat.div_lt_iff_lt_mul (by omega)]
        exact covered
      have double : difference / 2 * 2 ^ (level + 1) = 2 * (difference / 2) * 2 ^ level := by
        ring
      simp only [lift, if_neg zero]
      by_cases odd : difference % 2 = 1
      · rw [if_pos odd]
        have total : difference * 2 ^ level =
            2 ^ level + difference / 2 * 2 ^ (level + 1) := by
          rw [double]
          have parts : difference = 2 * (difference / 2) + 1 := by omega
          calc difference * 2 ^ level
              = (2 * (difference / 2) + 1) * 2 ^ level := by rw [← parts]
            _ = 2 ^ level + 2 * (difference / 2) * 2 ^ level := by ring
        have jump := scope.path_up level
        rw [total, ← drop_drop, ← jump]
        cases climbed : scope.up level with
        | none => simp [path]
        | some middle => simpa [path] using ih (difference / 2) (level + 1) middle half
      · rw [if_neg odd, Option.bind_some, ih _ _ _ half, double]
        have parts : 2 * (difference / 2) = difference := by omega
        rw [parts]

variable {outer inner : List F} {above : F → Option F}

theorem suffix_iff_drop :
    outer <:+ inner ↔ outer.length ≤ inner.length ∧ outer = inner.drop (inner.length - outer.length) := by
  constructor
  · intro suffix
    exact ⟨suffix.length_le, suffix_iff_eq_drop.1 suffix⟩
  · rintro ⟨-, same⟩
    exact suffix_iff_eq_drop.2 same

theorem suffix_drop_iff (count : Nat) (short : outer.length ≤ inner.length - count) :
    outer <:+ inner.drop count ↔ outer <:+ inner := by
  constructor
  · exact fun suffix => suffix.trans (drop_suffix _ _)
  · intro suffix
    exact suffix_of_suffix_length_le suffix (drop_suffix _ _) (by simpa using short)

theorem Scope.function_eq_iff {x y : Scope F} (one : Linked above x.chain)
    (two : Linked above y.chain) : x.function = y.function ↔ x.chain = y.chain := by
  constructor
  · intro same
    exact one.determined two (by simp [x.chain_eq_cons, y.chain_eq_cons, same])
  · intro same
    rw [x.chain_eq_cons, y.chain_eq_cons] at same
    exact (List.cons.inj same).1

theorem IsNearest.single (path : List F) : IsNearest path [path] := by
  intro outer
  simp

theorem IsNearest.congr {nearest : List F} {first second : List (List F)}
    (near : IsNearest nearest first) (same : ∀ path, path ∈ second ↔ path ∈ first) :
    IsNearest nearest second := by
  intro outer
  rw [near outer]
  simp only [same]

theorem IsNearest.suffix {nearest : List F} {paths : List (List F)} (near : IsNearest nearest paths)
    {path : List F} (member : path ∈ paths) : nearest <:+ path :=
  (near nearest).1 suffix_rfl path member

theorem Linked.suffix (linked : Linked above inner) (suffix : outer <:+ inner) :
    Linked above outer := by
  rw [(suffix_iff_drop.1 suffix).2]
  exact linked.drop _

variable [DecidableEq F]

/-- Scopes of one depth that differ climb to where only their parents agree. -/
theorem Scope.climbApart_spec (levels : Nat) (x y : Scope F) (one : Linked above x.chain)
    (two : Linked above y.chain) (level : x.chain.length = y.chain.length)
    (apart : x.chain ≠ y.chain) (meet : x.chain.drop (2 ^ levels) = y.chain.drop (2 ^ levels)) :
    ∃ count, (climbApart levels x y).1.chain = x.chain.drop count ∧
      (climbApart levels x y).2.chain = y.chain.drop count ∧
      x.chain.drop count ≠ y.chain.drop count ∧
      x.chain.drop (count + 1) = y.chain.drop (count + 1) := by
  induction levels generalizing x y with
  | zero => exact ⟨0, rfl, rfl, apart, meet⟩
  | succ levels ih =>
    have halves : 2 ^ (levels + 1) = 2 ^ levels + 2 ^ levels := by omega
    have jump := x.path_up levels
    have jump' := y.path_up levels
    simp only [climbApart]
    cases left : x.up levels with
    | none =>
      -- The jump leaves both chains, so they agree there already.
      have empty : x.chain.drop (2 ^ levels) = [] := by rw [← jump, left]; rfl
      have empty' : y.chain.drop (2 ^ levels) = [] := by
        rw [drop_eq_nil_iff] at empty ⊢
        omega
      exact ih x y one two level apart (by rw [empty, empty'])
    | some xa =>
      rw [left] at jump
      cases right : y.up levels with
      | none =>
        have empty : y.chain.drop (2 ^ levels) = [] := by rw [← jump', right]; rfl
        have empty' : x.chain.drop (2 ^ levels) = [] := by
          rw [drop_eq_nil_iff] at empty ⊢
          omega
        exact ih x y one two level apart (by rw [empty, empty'])
      | some ya =>
        rw [right] at jump'
        simp only [path] at jump jump'
        have one' : Linked above xa.chain := by rw [jump]; exact one.drop _
        have two' : Linked above ya.chain := by rw [jump']; exact two.drop _
        by_cases same : xa.function = ya.function
        · have agree := (function_eq_iff one' two').1 same
          simp only [same, ne_eq, not_true_eq_false, if_false]
          exact ih x y one two level apart (by rw [← jump, ← jump', agree])
        · simp only [ne_eq, same, not_false_eq_true, if_true]
          obtain ⟨count, first, second, differ, agree⟩ := ih xa ya one' two'
            (by rw [jump, jump']; simp [level])
            (fun agree => same ((function_eq_iff one' two').2 agree))
            (by rw [jump, jump', drop_drop, drop_drop, ← halves]; exact meet)
          refine ⟨2 ^ levels + count, ?_, ?_, ?_, ?_⟩
          · rw [first, jump, drop_drop]
          · rw [second, jump', drop_drop]
          · rw [← drop_drop, ← drop_drop, ← jump, ← jump']
            exact differ
          · have split : ∀ chain : List F, chain.drop (2 ^ levels + count + 1) =
                (chain.drop (2 ^ levels)).drop (count + 1) := by
              intro chain
              rw [drop_drop, Nat.add_assoc]
            rw [split, split, ← jump, ← jump']
            exact agree

private theorem lca_leveled {x y : Scope F} (one : Linked above x.chain)
    (two : Linked above y.chain) (level : x.chain.length = y.chain.length)
    (bounded : y.depth < 2 ^ LEVELS) (outer : List F) :
    outer <:+ path (if x.function = y.function then some x
        else (Scope.climbApart LEVELS x y).1.up 0) ↔ outer <:+ x.chain ∧ outer <:+ y.chain := by
  by_cases same : x.function = y.function
  · have agree := (Scope.function_eq_iff one two).1 same
    simp [if_pos same, path, agree]
  · have apart : x.chain ≠ y.chain := fun agree => same ((Scope.function_eq_iff one two).2 agree)
    have meet : x.chain.drop (2 ^ LEVELS) = y.chain.drop (2 ^ LEVELS) := by
      rw [drop_eq_nil_iff.2, drop_eq_nil_iff.2]
      · rw [y.length_chain]; omega
      · rw [level, y.length_chain]; omega
    obtain ⟨count, first, -, differ, agree⟩ :=
      Scope.climbApart_spec LEVELS x y one two level apart meet
    have top : path ((Scope.climbApart LEVELS x y).1.up 0) = x.chain.drop (count + 1) := by
      rw [Scope.path_up, first, drop_drop, Nat.pow_zero]
    rw [if_neg same, top]
    constructor
    · intro suffix
      exact ⟨suffix.trans (drop_suffix _ _), (agree ▸ suffix).trans (drop_suffix _ _)⟩
    · rintro ⟨left, right⟩
      have left_eq := (suffix_iff_drop.1 left).2
      have right_eq := (suffix_iff_drop.1 right).2
      -- A common suffix as long as the chains' tails at `count` would make them agree there.
      have deeper : count < x.chain.length - outer.length := by
        by_contra above'
        apply differ
        have cut : x.chain.length - outer.length + (count - (x.chain.length - outer.length)) = count := by
          omega
        rw [← cut, ← drop_drop, ← drop_drop, ← left_eq]
        rw [level, ← right_eq]
      refine (suffix_drop_iff _ ?_).2 left
      omega

/-- Within its depth a scope is lifted to the scope that many functions above it. -/
theorem Scope.lift_within {difference : Nat} (within : difference ≤ scope.depth)
    (covered : difference < 2 ^ LEVELS) : ∃ lifted, lift LEVELS difference 0 scope = some lifted ∧
      lifted.chain = scope.chain.drop difference := by
  have climbed := path_lift LEVELS difference 0 scope covered
  rw [Nat.pow_zero, Nat.mul_one] at climbed
  cases raised : lift LEVELS difference 0 scope with
  | none =>
    rw [raised] at climbed
    have short := drop_eq_nil_iff.1 climbed.symm
    rw [scope.length_chain] at short
    omega
  | some lifted =>
    rw [raised] at climbed
    exact ⟨lifted, rfl, climbed⟩

/-- The nearest common ancestor of two summaries, as their paths: what encloses it is what
encloses both. -/
theorem mergeSummaries_nearest (left right : Option (Scope F)) (one : Linked above (path left))
    (two : Linked above (path right)) (short : (path left).length ≤ 2 ^ LEVELS)
    (short' : (path right).length ≤ 2 ^ LEVELS) (outer : List F) :
    outer <:+ path (mergeSummaries left right) ↔ outer <:+ path left ∧ outer <:+ path right := by
  cases left with
  | none => simpa [mergeSummaries, path] using fun empty => by simp [empty]
  | some x =>
    cases right with
    | none => simpa [mergeSummaries, path] using fun empty => by simp [empty]
    | some y =>
      simp only [path, Scope.length_chain] at one two short short'
      have leveled : ∀ x y : Scope F, Linked above x.chain → Linked above y.chain →
          x.depth + 1 ≤ 2 ^ LEVELS → y.depth ≤ x.depth →
          (outer <:+ path (match Scope.lift LEVELS (x.depth - y.depth) 0 x with
            | none => none
            | some x => if x.function = y.function then some x
                else (Scope.climbApart LEVELS x y).1.up 0) ↔
            outer <:+ x.chain ∧ outer <:+ y.chain) := by
        intro x y one two short deeper
        obtain ⟨x', raised, climbed⟩ := x.lift_within (Nat.sub_le x.depth y.depth) (by omega)
        rw [raised]
        have level : x'.chain.length = y.chain.length := by
          rw [climbed, length_drop, x.length_chain, y.length_chain]
          omega
        have linked : Linked above x'.chain := by rw [climbed]; exact one.drop _
        rw [lca_leveled linked two level (by omega) outer, climbed]
        constructor
        · exact fun ⟨left, right⟩ => ⟨left.trans (drop_suffix _ _), right⟩
        · rintro ⟨left, right⟩
          refine ⟨(suffix_drop_iff _ ?_).2 left, right⟩
          have bound := right.length_le
          rw [y.length_chain] at bound
          rw [x.length_chain]
          omega
      simp only [mergeSummaries, Scope.lca, path]
      by_cases deeper : x.depth < y.depth
      · simp only [if_pos deeper]
        exact (leveled y x two one short' (by omega)).trans and_comm
      · simp only [if_neg deeper]
        exact leveled x y one two short (by omega)

theorem IsNearest.merge {left right : Option (Scope F)} {first second : List (List F)}
    (one : IsNearest (path left) first) (two : IsNearest (path right) second)
    (linked : Linked above (path left)) (linked' : Linked above (path right))
    (short : (path left).length ≤ 2 ^ LEVELS) (short' : (path right).length ≤ 2 ^ LEVELS) :
    IsNearest (path (mergeSummaries left right)) (first ++ second) := by
  intro outer
  rw [mergeSummaries_nearest left right linked linked' short short' outer, one outer, two outer]
  simp only [mem_append, or_imp, forall_and]

/-- Ancestry, by the functions the scopes name, is enclosure of the chains. -/
theorem Scope.isAncestorOrSelf_iff {scope other : Scope F} (one : Linked above scope.chain)
    (two : Linked above other.chain) (bounded : other.depth < 2 ^ LEVELS) :
    scope.isAncestorOrSelf other ↔ scope.chain <:+ other.chain := by
  simp only [isAncestorOrSelf]
  by_cases deeper : scope.depth > other.depth
  · rw [if_pos deeper]
    refine iff_of_false (by simp) fun suffix => ?_
    have bound := suffix.length_le
    rw [scope.length_chain, other.length_chain] at bound
    omega
  · rw [if_neg deeper]
    obtain ⟨current, raised, climbed⟩ := other.lift_within (Nat.sub_le _ scope.depth) (by omega)
    rw [raised]
    have linked : Linked above current.chain := by rw [climbed]; exact two.drop _
    have cut : other.chain.length - scope.chain.length = other.depth - scope.depth := by
      rw [other.length_chain, scope.length_chain]
      omega
    simp only [decide_eq_true_eq]
    rw [function_eq_iff linked one, suffix_iff_drop, cut, climbed]
    constructor
    · intro same
      exact ⟨by rw [scope.length_chain, other.length_chain]; omega, same.symm⟩
    · exact fun found => found.2.symm

end Laws

end LexicalScope
