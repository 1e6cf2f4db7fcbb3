import Mathlib.Algebra.Order.Ring.Nat
import Mathlib.Data.List.Basic

/-! Splitting a text by the longest match at every position. -/

open List

namespace LichenVm.LongestMatch

variable {α R : Type}

/-- What a text is split by: the skipped characters, the words that are recognised, and how many
characters follow the first one of a rejected piece. -/
structure Grammar (α R : Type) where
  blank : α → Bool
  recognise : List α → Option R
  extra : α → Nat

/-- A piece of a text: what was recognised in it, if anything. -/
structure Piece (α R : Type) where
  found : Option R
  slice : List α
  start : Nat
  deriving DecidableEq

def Piece.stop (piece : Piece α R) : Nat := piece.start + piece.slice.length

def Piece.shift (d : Nat) (piece : Piece α R) : Piece α R := { piece with start := piece.start + d }

@[simp] theorem Piece.shift_stop (d : Nat) (piece : Piece α R) :
    (piece.shift d).stop = piece.stop + d := by
  simp only [Piece.shift, Piece.stop]
  omega

variable (grammar : Grammar α R)

/-- The longest recognised word among the first `n` ones of a text. -/
def longest : Nat → List α → Option (R × Nat)
  | 0, _ => none
  | n + 1, text =>
    match grammar.recognise (text.take (n + 1)) with
    | some found => some (found, n + 1)
    | none => longest n text

/-- The longest match at the start of a text. -/
def munch (text : List α) : Option (R × Nat) := longest grammar text.length text

/-- Split a text, skipping blanks. -/
def scan : Nat → Nat → List α → List (Piece α R)
  | 0, _, _ => []
  | _ + 1, _, [] => []
  | fuel + 1, start, c :: rest =>
    if grammar.blank c then scan fuel (start + 1) rest
    else
      match munch grammar (c :: rest) with
      | some (found, n) =>
        ⟨some found, (c :: rest).take n, start⟩ :: scan fuel (start + n) ((c :: rest).drop n)
      | none =>
        let slice := c :: rest.take (grammar.extra c)
        ⟨none, slice, start⟩ :: scan fuel (start + slice.length) (rest.drop (grammar.extra c))

def pieces (start : Nat) (text : List α) : List (Piece α R) := scan grammar text.length start text

variable {grammar} {n : Nat} {found : R} {text : List α}

theorem longest_some {m : Nat} :
    longest grammar n text = some (found, m) ↔ 0 < m ∧ m ≤ n ∧
      grammar.recognise (text.take m) = some found ∧
        ∀ k, m < k → k ≤ n → grammar.recognise (text.take k) = none := by
  induction n with
  | zero =>
    constructor
    · intro none
      cases none
    · omega
  | succ n ih =>
    unfold longest
    cases whole : grammar.recognise (text.take (n + 1)) with
    | some here =>
      constructor
      · intro same
        cases same
        exact ⟨Nat.succ_pos n, le_refl _, whole, fun k more less => by omega⟩
      · rintro ⟨positive, within, hit, none⟩
        by_cases last : m = n + 1
        · subst last
          rw [whole] at hit
          cases hit
          rfl
        · have missing := none (n + 1) (by omega) (le_refl _)
          rw [whole] at missing
          cases missing
    | none =>
      rw [ih]
      constructor
      · rintro ⟨positive, within, hit, none⟩
        refine ⟨positive, by omega, hit, fun k more less => ?_⟩
        by_cases last : k = n + 1
        · rw [last, whole]
        · exact none k more (by omega)
      · rintro ⟨positive, within, hit, none⟩
        have inside : m ≠ n + 1 := by
          intro last
          rw [last, whole] at hit
          cases hit
        exact ⟨positive, by omega, hit, fun k more less => none k more (by omega)⟩

theorem longest_none : longest grammar n text = none ↔
      ∀ k, 0 < k → k ≤ n → grammar.recognise (text.take k) = none := by
  induction n with
  | zero => exact ⟨fun _ k positive less => by omega, fun _ => rfl⟩
  | succ n ih =>
    unfold longest
    cases whole : grammar.recognise (text.take (n + 1)) with
    | some here =>
      constructor
      · intro same
        cases same
      · intro none
        rw [none (n + 1) (Nat.succ_pos n) (le_refl _)] at whole
        cases whole
    | none =>
      rw [ih]
      constructor
      · intro none k positive less
        by_cases last : k = n + 1
        · rw [last, whole]
        · exact none k positive (by omega)
      · exact fun none k positive less => none k positive (by omega)

theorem munch_bounds (matched : munch grammar text = some (found, n)) : 0 < n ∧ n ≤ text.length :=
  let ⟨positive, within, _⟩ := longest_some.1 matched
  ⟨positive, within⟩

variable {old new : List α}

theorem munch_append {common : List α}
    (matched : munch grammar (common ++ old) = some (found, n)) (within : n ≤ common.length)
    (none : ∀ k, 0 < k → k ≤ new.length → grammar.recognise (common ++ new.take k) = none) :
    munch grammar (common ++ new) = some (found, n) := by
  obtain ⟨positive, _, hit, longer⟩ := longest_some.1 matched
  apply longest_some.2
  refine ⟨positive, by simp only [length_append]; omega, ?_, ?_⟩
  · rw [take_append_of_le_length within] at hit ⊢
    exact hit
  · intro k more less
    by_cases short : k ≤ common.length
    · have missing := longer k more (by simp only [length_append]; omega)
      rw [take_append_of_le_length short] at missing ⊢
      exact missing
    · rw [length_append] at less
      rw [take_append, take_of_length_le (by omega)]
      exact none (k - common.length) (by omega) (by omega)

theorem munch_none_append {common : List α} (unmatched : munch grammar (common ++ old) = none)
    (none : ∀ k, 0 < k → k ≤ new.length → grammar.recognise (common ++ new.take k) = none) :
    munch grammar (common ++ new) = .none := by
  apply longest_none.2
  intro k positive less
  by_cases short : k ≤ common.length
  · have missing := longest_none.1 unmatched k positive (by simp only [length_append]; omega)
    rw [take_append_of_le_length short] at missing ⊢
    exact missing
  · rw [length_append] at less
    rw [take_append, take_of_length_le (by omega)]
    exact none (k - common.length) (by omega) (by omega)

theorem scan_fuel (fuel other start : Nat) (text : List α) (enough : text.length ≤ fuel)
    (enough' : text.length ≤ other) :
    scan grammar fuel start text = scan grammar other start text := by
  induction fuel generalizing other start text with
  | zero =>
    rw [eq_nil_of_length_eq_zero (by omega : text.length = 0)]
    cases other <;> rfl
  | succ fuel ih =>
    cases text with
    | nil => cases other <;> rfl
    | cons c rest =>
      rw [length_cons] at enough enough'
      obtain ⟨other, rfl⟩ : ∃ less, other = less + 1 := ⟨other - 1, by omega⟩
      unfold scan
      split
      · exact ih other _ rest (by omega) (by omega)
      · split
        · rename_i found n matched
          have bounds := munch_bounds matched
          rw [ih other _ _ (by simp only [length_drop, length_cons]; omega)
            (by simp only [length_drop, length_cons]; omega)]
        · dsimp only
          rw [ih other _ _ (by rw [length_drop]; omega) (by rw [length_drop]; omega)]

theorem pieces_nil (start : Nat) : pieces grammar start [] = [] := rfl

variable {c : α}

theorem pieces_blank (blank : grammar.blank c) (start : Nat) (rest : List α) :
    pieces grammar start (c :: rest) = pieces grammar (start + 1) rest := by
  unfold pieces
  rw [length_cons, scan, if_pos blank]

section

variable {rest : List α} (visible : grammar.blank c = false)

include visible

theorem pieces_matched (matched : munch grammar (c :: rest) = some (found, n)) (start : Nat) :
    pieces grammar start (c :: rest) = ⟨some found, (c :: rest).take n, start⟩ ::
        pieces grammar (start + n) ((c :: rest).drop n) := by
  have bounds := munch_bounds matched
  unfold pieces
  rw [length_cons, scan, if_neg (by rw [visible]; exact Bool.false_ne_true), matched]
  dsimp only
  rw [scan_fuel _ ((c :: rest).drop n).length _ _
    (by simp only [length_drop, length_cons]; omega) (le_refl _)]

theorem pieces_rejected (unmatched : munch grammar (c :: rest) = none) (start : Nat) :
    pieces grammar start (c :: rest) = ⟨none, c :: rest.take (grammar.extra c), start⟩ ::
        pieces grammar (start + (c :: rest.take (grammar.extra c)).length)
          (rest.drop (grammar.extra c)) := by
  unfold pieces
  rw [length_cons, scan, if_neg (by rw [visible]; exact Bool.false_ne_true), unmatched]
  dsimp only
  rw [scan_fuel _ (rest.drop (grammar.extra c)).length _ _ (by rw [length_drop]; omega)
    (le_refl _)]

end

variable (grammar)

/-- A scan from one place of a text to another, and the pieces it makes. -/
inductive Scans : Nat → List α → List (Piece α R) → Nat → List α → Prop
  | stop (start : Nat) (text : List α) : Scans start text [] start text
  | blank {c : α} {start last : Nat} {rest text : List α} {made : List (Piece α R)}
      (blank : grammar.blank c = true) (scanned : Scans (start + 1) rest made last text) :
      Scans start (c :: rest) made last text
  | matched {c : α} {start last n : Nat} {rest text : List α} {made : List (Piece α R)} {found : R}
      (visible : grammar.blank c = false) (matched : munch grammar (c :: rest) = some (found, n))
      (scanned : Scans (start + n) ((c :: rest).drop n) made last text) :
      Scans start (c :: rest) (⟨some found, (c :: rest).take n, start⟩ :: made) last text
  | rejected {c : α} {start last : Nat} {rest text : List α} {made : List (Piece α R)}
      (visible : grammar.blank c = false) (unmatched : munch grammar (c :: rest) = none)
      (scanned : Scans (start + (c :: rest.take (grammar.extra c)).length)
        (rest.drop (grammar.extra c)) made last text) :
      Scans start (c :: rest) (⟨none, c :: rest.take (grammar.extra c), start⟩ :: made) last text

variable {grammar} {start last : Nat} {text rest : List α} {made : List (Piece α R)}

section

variable (scanned : Scans grammar start text made last rest)

include scanned

theorem Scans.pieces_eq : pieces grammar start text = made ++ pieces grammar last rest := by
  induction scanned with
  | stop => rfl
  | blank blank _ ih => rw [pieces_blank blank, ih]
  | matched visible matched _ ih => rw [pieces_matched visible matched, ih, cons_append]
  | rejected visible unmatched _ ih =>
    rw [pieces_rejected visible unmatched, ih, cons_append]

theorem Scans.drop_eq :
    start ≤ last ∧ rest = text.drop (last - start) ∧ last ≤ start + text.length := by
  induction scanned with
  | stop => simp
  | @blank c start last tail rest made _ _ ih =>
    obtain ⟨order, same, within⟩ := ih
    refine ⟨by omega, ?_, by rw [length_cons]; omega⟩
    rw [same, show last - start = last - (start + 1) + 1 by omega, drop_succ_cons]
  | @matched c start last n tail rest made found _ matched _ ih =>
    obtain ⟨order, same, within⟩ := ih
    have bounds := munch_bounds matched
    rw [length_drop] at within
    refine ⟨by omega, ?_, by omega⟩
    rw [same, drop_drop, show n + (last - (start + n)) = last - start by omega]
  | @rejected c start last tail rest made _ _ _ ih =>
    obtain ⟨order, same, within⟩ := ih
    rw [length_drop] at within
    rw [length_cons, length_take] at order within same
    refine ⟨by omega, ?_, by rw [length_cons]; omega⟩
    rw [same, drop_drop]
    by_cases short : grammar.extra c ≤ tail.length
    · rw [min_eq_left short, show last - start =
        grammar.extra c + (last - (start + (grammar.extra c + 1))) + 1 by omega,
        drop_succ_cons]
    · rw [drop_eq_nil_of_le (by omega), drop_eq_nil_of_le]
      rw [length_cons]
      omega

theorem Scans.start_le : ∀ piece ∈ made, start ≤ piece.start := by
  induction scanned with
  | stop => exact fun piece member => absurd member not_mem_nil
  | blank _ _ ih => exact fun piece member => Nat.le_of_succ_le (ih piece member)
  | matched _ _ _ ih | rejected _ _ _ ih =>
    intro piece member
    rcases mem_cons.1 member with rfl | member
    · exact le_refl _
    · exact le_trans (Nat.le_add_right _ _) (ih piece member)

end

theorem Scans.trans {middle : Nat} {tail : List α} {more : List (Piece α R)}
    (first : Scans grammar start text made middle rest)
    (second : Scans grammar middle rest more last tail) :
    Scans grammar start text (made ++ more) last tail := by
  induction first with
  | stop => exact second
  | blank blank _ ih => exact .blank blank (ih second)
  | matched visible matched _ ih => exact .matched visible matched (ih second)
  | rejected visible unmatched _ ih => exact .rejected visible unmatched (ih second)

variable {piece : Piece α R}

/-- A scan comes to every piece of a text, and past it. -/
theorem scans_first {later : List (Piece α R)} (start : Nat) (text : List α)
    (split : pieces grammar start text = piece :: later) :
    ∃ rest, Scans grammar start text [] piece.start rest ∧
      ∃ tail, Scans grammar piece.start rest [piece] piece.stop tail ∧
        pieces grammar piece.stop tail = later := by
  induction text generalizing start with
  | nil => cases split
  | cons c tail ih =>
    cases shown : grammar.blank c with
    | true =>
      rw [pieces_blank shown] at split
      obtain ⟨rest, here, there⟩ := ih (start + 1) split
      exact ⟨rest, .blank shown here, there⟩
    | false =>
      cases hit : munch grammar (c :: tail) with
      | some pair =>
        obtain ⟨found, n⟩ := pair
        have bounds := munch_bounds hit
        rw [pieces_matched shown hit] at split
        obtain ⟨rfl, later⟩ := List.cons.inj split
        have width : (Piece.mk (some found) ((c :: tail).take n) start).stop = start + n := by
          unfold Piece.stop
          rw [length_take, min_eq_left bounds.2]
        rw [width]
        exact ⟨c :: tail, .stop _ _, (c :: tail).drop n, .matched shown hit (.stop _ _), later⟩
      | none =>
        rw [pieces_rejected shown hit] at split
        obtain ⟨rfl, later⟩ := List.cons.inj split
        exact ⟨c :: tail, .stop _ _, _, .rejected shown hit (.stop _ _), later⟩

theorem scans_of_append {first later : List (Piece α R)} (start : Nat) (text : List α)
    (split : pieces grammar start text = first ++ later) :
    ∃ last rest, Scans grammar start text first last rest ∧ pieces grammar last rest = later ∧
      last = (first.getLast?.map Piece.stop).getD start := by
  induction first generalizing start text with
  | nil => exact ⟨start, text, .stop _ _, split, rfl⟩
  | cons piece first ih =>
    obtain ⟨rest, before, tail, past, next⟩ := scans_first start text split
    obtain ⟨last, rest', scanned, later, same⟩ := ih piece.stop tail next
    refine ⟨last, rest', before.trans (past.trans scanned), later, ?_⟩
    rw [same]
    cases first with
    | nil => rfl
    | cons second first => simp [List.getLast?_cons]

/-- Where a text changes only past a common beginning, a scan that stays in it makes the same
pieces, as long as no word reaches past it from where a piece starts. -/
theorem Scans.transfer (scanned : Scans grammar start text made last rest) (common : List α)
    (same : text = common ++ old) (within : last ≤ start + common.length)
    (whole : ∀ piece ∈ made, piece.found = none → piece.stop < start + common.length)
    (none : ∀ piece ∈ made, ∀ k, 0 < k → k ≤ new.length →
      grammar.recognise (common.drop (piece.start - start) ++ new.take k) = none) :
    Scans grammar start (common ++ new) made last (common.drop (last - start) ++ new) := by
  induction scanned generalizing common with
  | stop start =>
    rw [Nat.sub_self, drop_zero]
    exact .stop _ _
  | @blank c start last tail rest made blank scanned ih =>
    have order := scanned.drop_eq.1
    cases common with
    | nil =>
      rw [length_nil] at within
      omega
    | cons c' common =>
      obtain ⟨rfl, tails⟩ := List.cons.inj same
      rw [length_cons] at within whole
      have further : last - start = last - (start + 1) + 1 := by omega
      rw [further, drop_succ_cons]
      apply Scans.blank blank
      apply ih common tails (by omega)
      · intro piece member rejected
        have := whole piece member rejected
        omega
      · intro piece member k positive less
        have here := none piece member k positive less
        have later := scanned.start_le piece member
        rwa [show piece.start - start = piece.start - (start + 1) + 1 by omega,
          drop_succ_cons] at here
  | @matched c start last n tail rest made found visible matched scanned ih =>
    have bounds := munch_bounds matched
    have order := scanned.drop_eq.1
    have short : n ≤ common.length := by omega
    have next := ih (common.drop n)
      (by rw [same, drop_append_of_le_length short])
      (by rw [length_drop]; omega)
      (by
        intro piece member rejected
        have := whole piece (mem_cons_of_mem _ member) rejected
        rw [length_drop]
        omega)
      (by
        intro piece member k positive less
        have here := none piece (mem_cons_of_mem _ member) k positive less
        have later := scanned.start_le piece member
        rwa [drop_drop, show n + (piece.start - (start + n)) = piece.start - start by omega])
    rw [drop_drop, show n + (last - (start + n)) = last - start by omega] at next
    have slice : (c :: tail).take n = common.take n := by
      rw [same, take_append_of_le_length short]
    have hit : munch grammar (common ++ new) = some (found, n) := by
      rw [same] at matched
      apply munch_append matched short
      intro k positive less
      have here := none _ mem_cons_self k positive less
      rwa [Nat.sub_self, drop_zero] at here
    rw [slice]
    rw [← drop_append_of_le_length short] at next
    have slice' : (common ++ new).take n = common.take n := take_append_of_le_length short
    rw [← slice']
    cases common with
    | nil =>
      rw [length_nil] at short
      omega
    | cons c' common =>
      obtain ⟨rfl, tails⟩ := List.cons.inj same
      exact .matched visible hit next
  | @rejected c start last tail rest made visible unmatched scanned ih =>
    have order := scanned.drop_eq.1
    have inside := whole _ mem_cons_self rfl
    simp only [Piece.stop] at inside
    rw [length_cons, length_take] at order inside
    cases common with
    | nil =>
      rw [length_nil] at within
      omega
    | cons c' common =>
      rw [cons_append] at same
      obtain ⟨rfl, tails⟩ := List.cons.inj same
      subst tails
      rw [length_cons] at inside within
      rw [length_append] at inside order
      have short : grammar.extra c ≤ common.length := by omega
      have slice : ∀ later : List α,
          (common ++ later).take (grammar.extra c) = common.take (grammar.extra c) :=
        fun later => take_append_of_le_length short
      have width : (c :: common.take (grammar.extra c)).length = grammar.extra c + 1 := by
        rw [length_cons, length_take, min_eq_left short]
      rw [slice, width] at ih scanned
      have next := ih (common.drop (grammar.extra c))
        (by rw [drop_append_of_le_length short])
        (by rw [length_drop]; omega)
        (by
          intro piece member rejected
          have := whole piece (mem_cons_of_mem _ member) rejected
          rw [length_cons] at this
          rw [length_drop]
          omega)
        (by
          intro piece member k positive less
          have here := none piece (mem_cons_of_mem _ member) k positive less
          have later := scanned.start_le piece member
          rwa [show piece.start - start = grammar.extra c +
            (piece.start - (start + (grammar.extra c + 1))) + 1 by omega, drop_succ_cons,
            ← drop_drop] at here)
      have unhit : munch grammar (c :: (common ++ new)) = .none := by
        have before : munch grammar ((c :: common) ++ old) = .none := unmatched
        apply munch_none_append before
        intro k positive less
        have here := none _ mem_cons_self k positive less
        rwa [Nat.sub_self, drop_zero] at here
      rw [slice, show last - start = grammar.extra c +
        (last - (start + (grammar.extra c + 1))) + 1 by omega, drop_succ_cons,
        ← drop_drop]
      have made : Scans grammar start (c :: (common ++ new))
          (⟨.none, c :: (common ++ new).take (grammar.extra c), start⟩ :: made) last _ :=
        .rejected visible unhit (by
          rw [slice, width, drop_append_of_le_length short]
          exact next)
      rwa [slice] at made

theorem pieces_shift (d start : Nat) (text : List α) :
    pieces grammar (start + d) text = (pieces grammar start text).map (Piece.shift d) := by
  unfold pieces
  generalize text.length = fuel
  induction fuel generalizing start text with
  | zero => rfl
  | succ fuel ih =>
    cases text with
    | nil => rfl
    | cons c rest =>
      unfold scan
      split
      · rw [show start + d + 1 = start + 1 + d by omega]
        exact ih (start + 1) rest
      · split
        · rw [map_cons, ← ih, show ∀ n, start + d + n = start + n + d by omega]
          rfl
        · dsimp only
          rw [map_cons, ← ih, show ∀ n, start + d + n = start + n + d by omega]
          rfl

theorem start_le_of_mem (member : piece ∈ pieces grammar start text) : start ≤ piece.start := by
  have whole := (append_nil (pieces grammar start text)).symm
  obtain ⟨_, _, scanned, -, -⟩ := scans_of_append start text whole
  exact scanned.start_le piece member

/-- What a piece is of the text from where it starts. -/
structure Begins (grammar : Grammar α R) (piece : Piece α R) (text : List α) : Prop where
  filled : piece.slice ≠ []
  slice : piece.slice = text.take piece.slice.length
  munched : munch grammar text = piece.found.map fun found => (found, piece.slice.length)

/-- A visible character starts a piece, and the pieces go on behind it. -/
theorem pieces_visible {rest : List α} (visible : grammar.blank c = false) (start : Nat) :
    ∃ piece, piece.start = start ∧ Begins grammar piece (c :: rest) ∧
      pieces grammar start (c :: rest) =
        piece :: pieces grammar piece.stop ((c :: rest).drop piece.slice.length) := by
  cases hit : munch grammar (c :: rest) with
  | some pair =>
    obtain ⟨found, n⟩ := pair
    have bounds := munch_bounds hit
    have width : ((c :: rest).take n).length = n := by
      rw [length_take, min_eq_left bounds.2]
    refine ⟨⟨some found, (c :: rest).take n, start⟩, rfl, ⟨?_, ?_, ?_⟩, ?_⟩
    · rw [← length_pos_iff, width]
      exact bounds.1
    · rw [width]
    · rw [hit, width]
      rfl
    · rw [pieces_matched visible hit, Piece.stop, width]
  | none =>
    have tail : (c :: rest).drop (c :: rest.take (grammar.extra c)).length =
        rest.drop (grammar.extra c) := by
      rw [length_cons, drop_succ_cons, length_take]
      by_cases short : grammar.extra c ≤ rest.length
      · rw [min_eq_left short]
      · rw [min_eq_right (by omega), drop_length, drop_eq_nil_of_le (by omega)]
    refine ⟨⟨none, c :: rest.take (grammar.extra c), start⟩, rfl, ⟨cons_ne_nil _ _, ?_, hit⟩, ?_⟩
    · rw [length_cons, take_succ_cons, length_take, ← take_eq_take_min]
    · rw [pieces_rejected visible hit, tail, Piece.stop]

theorem begins_of_mem (start : Nat) (text : List α) (member : piece ∈ pieces grammar start text) :
    Begins grammar piece (text.drop (piece.start - start)) := by
  induction size : text.length using Nat.strongRecOn generalizing start text with
  | ind size ih =>
    cases text with
    | nil => cases member
    | cons c rest =>
      rw [length_cons] at size
      have later : ∀ n, 0 < n → piece ∈ pieces grammar (start + n) ((c :: rest).drop n) →
          Begins grammar piece ((c :: rest).drop (piece.start - start)) := by
        intro n positive member
        have order := start_le_of_mem member
        have own := ih ((c :: rest).drop n).length
          (by rw [length_drop, length_cons]; omega) _ _ member rfl
        rwa [drop_drop, show n + (piece.start - (start + n)) = piece.start - start by omega]
          at own
      cases shown : grammar.blank c with
      | true =>
        rw [pieces_blank shown] at member
        exact later 1 Nat.one_pos member
      | false =>
        obtain ⟨first, rfl, begins, split⟩ := @pieces_visible _ _ _ _ rest shown start
        rw [split] at member
        rcases mem_cons.1 member with rfl | member
        · rwa [Nat.sub_self, drop_zero]
        · exact later _ (length_pos_iff.2 begins.filled) member

/-- Every visible character lies in a piece. -/
theorem exists_piece (start : Nat) (text : List α) {place : Nat} (found : text[place]? = some c)
    (visible : grammar.blank c = false) : ∃ piece ∈ pieces grammar start text,
      piece.start ≤ start + place ∧ start + place < piece.stop := by
  induction size : text.length using Nat.strongRecOn generalizing start text place with
  | ind size ih =>
    cases text with
    | nil => cases found
    | cons d rest =>
      cases shown : grammar.blank d with
      | true =>
        cases place with
        | zero =>
          cases found
          exact absurd (visible.symm.trans shown) Bool.false_ne_true
        | succ place =>
          rw [pieces_blank shown, Nat.add_comm place, ← Nat.add_assoc]
          exact ih rest.length (by rw [← size, length_cons]; omega) _ _ found rfl
      | false =>
        obtain ⟨first, rfl, begins, split⟩ := @pieces_visible _ _ _ _ rest shown start
        have filled := length_pos_iff.2 begins.filled
        rw [split]
        by_cases inside : place < first.slice.length
        · exact ⟨first, mem_cons_self, Nat.le_add_right _ _, Nat.add_lt_add_left inside _⟩
        · obtain ⟨piece, member, covers⟩ := ih _ (by rw [length_drop, ← size, length_cons]; omega)
            first.stop ((d :: rest).drop first.slice.length)
            (by rwa [getElem?_drop, Nat.add_sub_cancel' (not_lt.1 inside)]) rfl
          rw [Piece.stop, Nat.add_assoc, Nat.add_sub_cancel' (not_lt.1 inside)] at covers
          exact ⟨piece, mem_cons_of_mem _ member, covers⟩

theorem Begins.longer (begins : Begins grammar piece text) {k : Nat}
    (more : piece.slice.length < k) (within : k ≤ text.length) :
    grammar.recognise (text.take k) = none := by
  have munched := begins.munched
  cases found : piece.found with
  | none =>
    rw [found] at munched
    exact longest_none.1 munched k (by omega) within
  | some here =>
    rw [found] at munched
    exact (longest_some.1 munched).2.2.2 k more within

theorem Begins.recognised (begins : Begins grammar piece text)
    (some : piece.found = some found) : grammar.recognise piece.slice = .some found := by
  have munched := begins.munched
  rw [some] at munched
  rw [begins.slice]
  exact (longest_some.1 munched).2.2.1

theorem Begins.rejected (begins : Begins grammar piece text)
    (rejected : piece.found = none) {k : Nat} (positive : 0 < k) (within : k ≤ text.length) :
    grammar.recognise (text.take k) = none := by
  have munched := begins.munched
  rw [rejected] at munched
  exact longest_none.1 munched k positive within

theorem start_lt_stop (member : piece ∈ pieces grammar start text) : piece.start < piece.stop := by
  have filled := length_pos_iff.2 (begins_of_mem _ _ member).filled
  unfold Piece.stop
  omega

theorem pieces_pairwise (start : Nat) (text : List α) :
    (pieces grammar start text).Pairwise fun first second => first.stop ≤ second.start := by
  generalize made : pieces grammar start text = list
  induction list generalizing start text with
  | nil => exact .nil
  | cons first later ih =>
    obtain ⟨rest, before, tail, past, next⟩ := scans_first start text made
    apply List.Pairwise.cons
    · intro second member
      rw [← next] at member
      exact start_le_of_mem member
    · exact ih _ _ next

end LichenVm.LongestMatch
