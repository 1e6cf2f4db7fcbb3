import LichenVm.Relexing
import LichenVm.RawTokens

open List Option

namespace LichenVm.Lexer

open LongestMatch

variable {F : Type} {parseFloat : List Byte → F} {lines lines' : List Nat}

theorem marker_of_yield?_none {previous : Option Nat} {piece : Piece Byte RawToken}
    (silent : yield? parseFloat lines piece = none) :
    (marker lines previous piece : List (Token F)) = [] := by
  unfold marker
  apply if_neg
  rintro ⟨delimiter, -⟩
  unfold yield? at silent
  split at silent
  · rename_i found
    rw [found] at delimiter
    cases delimiter
  · rename_i raw found
    rw [found] at delimiter
    cases raw with
    | fixed word => cases silent
    | _ => cases delimiter

/-- What the reused tokens are: the tokens of the first pieces, of which the last one yields a
token, and a marker when the restart is the delimiter it stands before. -/
structure Reused (parseFloat : List Byte → F) (lines : List Nat) (previous : Option Nat)
    (made : List (Piece Byte RawToken)) (a : Nat) (kept : List (Token F)) where
  first : List (Piece Byte RawToken)
  rest : List (Piece Byte RawToken)
  glue : List (Token F)
  split : made = first ++ rest
  tokens : kept = stream parseFloat lines previous first ++ glue
  before : ∀ piece ∈ first, piece.stop < a
  yields : ∀ piece, first.getLast? = some piece → (yield? parseFloat lines piece).isSome = true
  markers : ∀ token ∈ glue, token.kind = .glue
  few : glue.length ≤ 1

theorem reused_cons (token : Token F) (tokens : List (Token F)) (a : Nat) :
    reused (token :: tokens) a = if token.stop < a then token :: reused tokens a else [] := by
  unfold reused touched
  rw [findIdx_cons]
  by_cases before : token.stop < a
  · rw [if_pos before, show decide (a ≤ token.stop) = false from decide_eq_false (by omega)]
    rfl
  · rw [if_neg before, show decide (a ≤ token.stop) from decide_eq_true (by omega)]
    rfl

theorem reused_split (previous : Option Nat) (made : List (Piece Byte RawToken))
    (ordered : made.Pairwise fun first second => first.stop ≤ second.start)
    (wide : ∀ piece ∈ made, piece.start < piece.stop) {a : Nat} {last : Token F}
    (ends : a ≤ last.stop) :
    Nonempty (Reused parseFloat lines previous made a
      (reused (stream parseFloat lines previous made ++ [last]) a)) := by
  induction made generalizing previous with
  | nil =>
    refine ⟨[], [], [], rfl, ?_, by simp, by simp, by simp, by simp⟩
    rw [stream_nil, nil_append, reused_cons, if_neg (by omega)]
    rfl
  | cons piece made ih =>
    obtain ⟨first, rest, glue, split, tokens, before, yields, markers, few⟩ :=
      ih (endAfter piece) (pairwise_cons.1 ordered).2
        fun later member => wide later (mem_cons_of_mem _ member)
    have own := wide piece mem_cons_self
    rw [stream_cons, append_assoc, append_assoc]
    cases yielded : yield? parseFloat lines piece with
    | none =>
      rw [marker_of_yield?_none yielded]
      show Nonempty (Reused _ _ _ _ _ (reused (stream _ _ _ _ ++ [last]) a))
      rw [tokens]
      cases first with
      | nil => exact ⟨[], piece :: made, glue, rfl, rfl, by simp, by simp, markers, few⟩
      | cons second first =>
        refine ⟨piece :: second :: first, rest, glue, congrArg (piece :: ·) split, ?_, ?_, ?_,
          markers, few⟩
        · rw [stream_cons previous piece, yielded, marker_of_yield?_none yielded]
          rfl
        · intro other member
          rcases mem_cons.1 member with rfl | member
          · have follows := (pairwise_cons.1 ordered).1 second
              (by rw [split]; exact mem_cons_self)
            have ends := before second mem_cons_self
            have wide' := wide second (by rw [split]; simp)
            omega
          · exact before other member
        · intro other found
          exact yields other found
    | some token =>
      have spec := yield?_spec yielded
      rw [toList_some, singleton_append]
      by_cases outside : a ≤ piece.start
      · refine ⟨[], piece :: made, [], rfl, ?_, by simp, by simp, by simp, by simp⟩
        unfold marker
        split
        · rw [singleton_append, reused_cons, if_neg (by dsimp only; omega)]
          rfl
        · rw [nil_append, reused_cons, if_neg (by omega)]
          rfl
      · by_cases across : a ≤ piece.stop
        · refine ⟨[], piece :: made, marker lines previous piece, rfl, ?_, by simp, by simp,
            fun token member => (marker_spec member).1, ?_⟩
          · rw [stream_nil, nil_append]
            unfold marker
            split
            · rw [singleton_append, reused_cons, if_pos (by dsimp only; omega), reused_cons,
                if_neg (by omega)]
            · rw [nil_append, reused_cons, if_neg (by omega)]
          · unfold marker
            split <;> simp
        · refine ⟨piece :: first, rest, glue, congrArg (piece :: ·) split, ?_, ?_, ?_, markers, few⟩
          · rw [stream_cons, yielded, append_assoc, append_assoc, ← tokens]
            unfold marker
            split
            · rw [singleton_append, reused_cons, if_pos (by dsimp only; omega),
                reused_cons, if_pos (by omega)]
              rfl
            · rw [nil_append, reused_cons, if_pos (by omega)]
              rfl
          · intro other member
            rcases mem_cons.1 member with rfl | member
            · omega
            · exact before other member
          · intro other found
            cases first with
            | nil =>
              rw [List.getLast?_singleton] at found
              cases found
              rw [yielded]
              rfl
            | cons second first =>
              exact yields other found

/-- The last token that is not a marker. -/
def lastReal (tokens : List (Token F)) : Option (Token F) :=
  tokens.reverse.find? fun token => token.glueEnd.isNone

theorem lastReal_append (tokens glue : List (Token F)) (markers : ∀ token ∈ glue, token.kind = .glue) :
    lastReal (tokens ++ glue) = lastReal tokens := by
  unfold lastReal
  rw [reverse_append, List.find?_append]
  have none : glue.reverse.find? (fun token => token.glueEnd.isNone) = none := by
    rw [List.find?_eq_none]
    intro token member
    unfold Token.glueEnd
    rw [markers token (mem_reverse.1 member)]
    exact Bool.false_ne_true
  rw [none, none_or]

theorem lastReal_concat (tokens : List (Token F)) {token : Token F} (real : token.kind ≠ .glue) :
    lastReal (tokens ++ [token]) = some token := by
  unfold lastReal
  rw [reverse_append, reverse_singleton, singleton_append, List.find?_cons_of_pos]
  rw [glueEnd_of_ne real]
  rfl

/-- The end that lexing on after a token starts with. -/
def Token.endAfter (token : Token F) : Option Nat :=
  match token.kind with
  | .separator => none
  | _ => some token.stop

theorem seedPrevEnd_eq (prev : List (Token F)) (i : Nat) :
    seedPrevEnd prev i = (lastReal (prev.take i)).bind Token.endAfter := by
  induction i with
  | zero => rfl
  | succ i ih =>
    unfold seedPrevEnd
    cases found : prev[i]? with
    | none =>
      have short := List.getElem?_eq_none_iff.1 found
      rw [ih, take_of_length_le short, take_of_length_le (by omega)]
    | some token =>
      dsimp only
      rw [take_add_one, found, toList_some]
      by_cases marked : token.kind = .glue
      · rw [lastReal_append _ _ (by simpa using marked), marked]
        exact ih
      · rw [lastReal_concat _ marked, bind_some]
        unfold Token.endAfter
        split
        · contradiction
        · rename_i separator
          rw [separator]
        · rename_i other
          split
          · contradiction
          · rfl

theorem rawToKind_separator {raw : RawToken} {slice : List Byte}
    (read : rawToKind parseFloat raw slice = .ok .separator) : raw = .separator := by
  unfold rawToKind at read
  all_goals
    dsimp only at read
    repeat' split at read
  all_goals first | rfl | cases read

theorem endAfter_of_yield? {piece : Piece Byte RawToken} {token : Token F}
    (yielded : yield? parseFloat lines piece = some token) : endAfter piece = token.endAfter := by
  unfold yield? at yielded
  unfold endAfter Token.endAfter
  split at yielded
  · cases yielded
  · rename_i raw found
    rw [found]
    split at yielded
    · rename_i kind read
      cases yielded
      by_cases separator : raw = .separator
      · subst separator
        cases read
        rfl
      · have other : kind ≠ .separator := by
          rintro rfl
          exact separator (rawToKind_separator read)
        split
        · contradiction
        · rename_i same
          exact absurd (some.inj same) separator
        · split
          · contradiction
          · rfl
    · cases yielded

variable {made : List (Piece Byte RawToken)} {a : Nat} {kept : List (Token F)}

theorem Reused.lastReal_eq (reused : Reused parseFloat lines none made a kept) :
    lastReal kept = reused.first.getLast?.bind (yield? parseFloat lines) := by
  obtain ⟨first, rest, glue, split, rfl, before, yields, markers, few⟩ := reused
  rw [lastReal_append _ _ markers]
  dsimp only at yields ⊢
  rcases eq_nil_or_concat first with rfl | ⟨others, piece, rfl⟩
  · rfl
  · rw [concat_eq_append] at yields ⊢
    have found : (others ++ [piece]).getLast? = some piece := List.getLast?_concat
    obtain ⟨token, yielded⟩ := isSome_iff_exists.1 (yields piece found)
    have spec := yield?_spec yielded
    rw [found, bind_some, stream_append, stream_cons, yielded, stream_nil, append_nil,
      ← append_assoc]
    exact lastReal_concat _ spec.1

end LichenVm.Lexer
