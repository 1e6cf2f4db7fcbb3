import LichenVm.TokenStream

open List

namespace LichenVm.Lexer

open LongestMatch

variable (old new : List Byte)

theorem agreement_le : agreement old new ≤ old.length ∧ agreement old new ≤ new.length := by
  induction old generalizing new with
  | nil => exact ⟨Nat.zero_le _, Nat.zero_le _⟩
  | cons x old ih =>
    cases new with
    | nil => exact ⟨Nat.zero_le _, Nat.zero_le _⟩
    | cons y new =>
      unfold agreement
      split
      · have := ih new
        simp only [length_cons]
        omega
      · exact ⟨Nat.zero_le _, Nat.zero_le _⟩

theorem take_agreement (n : Nat) (within : n ≤ agreement old new) : old.take n = new.take n := by
  induction old generalizing new n with
  | nil =>
    have : n = 0 := Nat.le_zero.1 within
    rw [this, take_zero, take_zero]
  | cons x old ih =>
    cases new with
    | nil =>
      have : n = 0 := Nat.le_zero.1 within
      rw [this, take_zero, take_zero]
    | cons y new =>
      cases n with
      | zero => rfl
      | succ n =>
        unfold agreement at within
        split at within
        · rename_i same
          rw [take_succ_cons, take_succ_cons, same, ih new n (by omega)]
        · omega

/-- An edit: the two sources agree before `a` and after it, `b` being where the new one comes to
the unchanged rest. -/
structure Edit (old new : List Byte) (a b : Nat) : Prop where
  inOld : a ≤ old.length
  before : old.take a = new.take a
  order : a ≤ b
  inNew : b ≤ new.length
  longer : new.length ≤ old.length + b
  after : ∀ place, b ≤ place → place ≤ new.length →
    new.drop place = old.drop (place + old.length - new.length)

theorem edit_editSpan : Edit old new (editSpan old new).1 (editSpan old new).2 := by
  have limits := agreement_le old new
  have few : min (min old.length new.length - agreement old new)
      (agreement old.reverse new.reverse) ≤ min old.length new.length - agreement old new :=
    min_le_left _ _
  have tail := take_agreement old.reverse new.reverse _ (min_le_right
    (min old.length new.length - agreement old new) (agreement old.reverse new.reverse))
  unfold editSpan
  dsimp only
  generalize min (min old.length new.length - agreement old new)
    (agreement old.reverse new.reverse) = kept at few tail ⊢
  rw [take_reverse, take_reverse] at tail
  have tail := reverse_injective tail
  refine ⟨limits.1, take_agreement old new _ (le_refl _), by omega, by omega, by omega, ?_⟩
  intro place past within
  have offset : place = new.length - kept + (place - (new.length - kept)) := by omega
  have offset' : place + old.length - new.length =
      old.length - kept + (place - (new.length - kept)) := by omega
  rw [offset', ← drop_drop, tail, drop_drop, ← offset]

variable {F : Type} {parseFloat : List Byte → F} {lines lines' : List Nat}

theorem glueEnd_eq (token : Token F) :
    token.glueEnd = (token.glueEnd.map fun _ => 0).map (· + token.start) := by
  unfold Token.glueEnd
  split
  · rw [Option.map_some, Option.map_some, zero_add]
  · rfl

theorem glueEnd_congr {token other : Token F} (same : other.kind = token.kind) :
    (other.glueEnd.map fun _ => 0) = token.glueEnd.map fun _ => 0 := by
  unfold Token.glueEnd
  rw [same]
  split <;> rfl

theorem moved_placed {delta : Int} {start start' : Nat} (shift : (start' : Int) = start + delta)
    (token : Token F) :
    moved lines' delta (placed lines start token) = placed lines' start' token := by
  unfold moved placed
  rw [show ((token.start + start : Nat) + delta).toNat = token.start + start' by omega,
    show ((token.stop + start : Nat) + delta).toNat = token.stop + start' by omega]

variable [DecidableEq F] {token : Token F}

theorem resync_spec {prev : List (Token F)} {j found b : Nat} {delta : Int}
    (hit : (resync prev j token delta b).2 = some found) :
    b ≤ token.start ∧ ∃ old, prev[found]? = some old ∧ (old.start : Int) = token.start - delta ∧
      old.kind = token.kind := by
  unfold resync at hit
  dsimp only at hit
  split at hit
  · cases hit
  · rename_i past
    refine ⟨by omega, ?_⟩
    split at hit
    · cases hit
    · rename_i old probed
      split at hit
      · rename_i same
        cases hit
        exact ⟨old, probed, same.1, same.2.2⟩
      · cases hit

variable {old new : List Byte}

/-- A token found among the old ones stands where the edit moved it, and so do all after it. -/
theorem resync_suffix {base a b j found start : Nat} (edit : Edit old new a b)
    {previous : Option Nat} {before later : List (Token F)} (inside : base ≤ start)
    (split : stream parseFloat lines' previous
      (pieces tokenizer start (new.drop (start - base))) = before ++ token :: later)
    (hit : (resync (lexWith parseFloat lines old base).tokens j token
      (new.length - old.length : Int) (b + base)).2 = some found) :
    ((lexWith parseFloat lines old base).tokens.drop found).map
        (moved lines' (new.length - old.length)) =
      token :: later ++ [eofToken lines' (base + new.length)] := by
  obtain ⟨past, twin, probed, aligned, kinds⟩ := resync_spec hit
  -- The new tokens from this one on.
  have member : token ∈ stream parseFloat lines' previous
      (pieces tokenizer start (new.drop (start - base))) := by
    rw [split]
    exact mem_append_right _ mem_cons_self
  have real := kind_of_mem_stream member
  obtain ⟨order, fresh⟩ := stream_from split
  rw [drop_drop, show start - base + (token.start - start) = token.start - base by omega]
    at fresh
  have within : token.start - base ≤ new.length := by
    by_contra beyond
    rw [drop_eq_nil_of_le (by omega), pieces_nil, stream_nil] at fresh
    cases fresh
  -- The old tokens from its twin on.
  have tokens : (lexWith parseFloat lines old base).tokens =
      stream parseFloat lines none (pieces tokenizer base old) ++
        [eofToken lines (base + old.length)] := rfl
  rw [tokens] at probed ⊢
  generalize made : stream parseFloat lines none (pieces tokenizer base old) = oldTokens at probed ⊢
  have listed : found < oldTokens.length := by
    by_contra beyond
    rw [getElem?_append_right (by omega)] at probed
    have last := mem_of_getElem? probed
    rw [mem_singleton.1 last] at kinds
    exact real kinds.symm
  rw [getElem?_append_left listed] at probed
  rw [drop_append_of_le_length (by omega)]
  have split' : oldTokens = oldTokens.take found ++ twin :: oldTokens.drop (found + 1) := by
    rw [← List.getElem?_eq_some_iff.1 probed |>.2, ← drop_eq_getElem_cons, take_append_drop]
  have tail : oldTokens.drop found = twin :: oldTokens.drop (found + 1) := by
    rw [← List.getElem?_eq_some_iff.1 probed |>.2, ← drop_eq_getElem_cons]
  obtain ⟨order', stale⟩ := stream_from (made.trans split')
  rw [← tail] at stale
  -- Both are the tokens of one text.
  have text : new.drop (token.start - base) = old.drop (twin.start - base) := by
    rw [edit.after (token.start - base) (by omega) within]
    congr 1
    omega
  have further : ∀ place, pieces tokenizer place (new.drop (token.start - base)) =
      (pieces tokenizer 0 (new.drop (token.start - base))).map (Piece.shift place) := by
    intro place
    have shifted := @pieces_shift _ _ tokenizer place 0 (new.drop (token.start - base))
    rwa [zero_add] at shifted
  rw [glueEnd_eq token, further, stream_shift lines] at fresh
  rw [glueEnd_eq twin, glueEnd_congr kinds, ← text, further, stream_shift lines] at stale
  rw [map_append, stale, fresh, map_map]
  refine congrArg₂ (· ++ ·) ?_ ?_
  · apply map_congr_left
    intro token' _
    exact moved_placed (by omega) token'
  · show [moved lines' _ (eofToken lines (base + old.length))] = _
    unfold moved eofToken
    rw [show ((base + old.length : Nat) + (new.length - old.length : Int)).toNat =
      base + new.length by omega]

/-- Where lexing starts again: at the first old token that ends at the edit or past it. -/
def touched (prev : List (Token F)) (a : Nat) : Nat := prev.findIdx fun token => a ≤ token.stop

def restart (prev : List (Token F)) (a : Nat) : Nat := (prev[touched prev a]?.map Token.start).getD a

def reused (prev : List (Token F)) (a : Nat) : List (Token F) := prev.take (touched prev a)

omit [DecidableEq F] in
theorem restart_of_lexWith (old : List Byte) (base a : Nat) (inside : a ≤ old.length) :
    ∃ token ∈ (lexWith parseFloat lines old base).tokens,
      restart (lexWith parseFloat lines old base).tokens (a + base) = token.start := by
  have listed : touched (lexWith parseFloat lines old base).tokens (a + base) <
      (lexWith parseFloat lines old base).tokens.length := by
    apply findIdx_lt_length_of_exists
    refine ⟨eofToken lines (base + old.length), mem_append_right _ mem_cons_self, ?_⟩
    apply decide_eq_true
    show a + base ≤ base + old.length
    omega
  refine ⟨_, getElem_mem listed, ?_⟩
  rw [restart, getElem?_eq_getElem listed]
  rfl

omit [DecidableEq F] in
theorem base_le_start {code : List Byte} {base : Nat}
    (member : token ∈ (lexWith parseFloat lines code base).tokens) : base ≤ token.start := by
  rcases mem_append.1 member with member | last
  · obtain ⟨before, later, split⟩ := append_of_mem member
    exact (stream_from split).1
  · rw [mem_singleton.1 last]
    exact Nat.le_add_right _ _

theorem isCharBoundary_le {source : List Byte} {pos : Nat}
    (boundary : isCharBoundary source pos) : pos ≤ source.length := by
  unfold isCharBoundary at boundary
  split at boundary
  · exact le_of_eq (eq_of_beq boundary)
  · rename_i found
    exact le_of_lt (List.getElem?_eq_some_iff.1 found).1

/-- The tokens re-lexing pushes from a restart, and the old ones it reuses after them. -/
def relexed (parseFloat : List Byte → F) (lines : List Nat) (prev : List (Token F)) (delta : Int)
    (b i s : Nat) (code : List Byte) : List (Token F) :=
  let resumed := resumeLoop prev delta b i
    (lexLoop parseFloat lines (seedPrevEnd prev i) (pieces tokenizer s code))
  resumed.1.filterMap Event.token? ++
    match resumed.2 with
    | some found => (prev.drop found).map (moved lines delta)
    | none => [eofToken lines (s + code.length)]

theorem lexResume_eq (prev : List (Token F)) (old new : List Byte) (base a b : Nat) :
    (lexResume parseFloat lines prev old new base a b).map Lexed.tokens =
      if restart prev a < base ∨ isCharBoundary new (restart prev a - base) = false then none
      else some (reused prev a ++ relexed parseFloat lines prev (new.length - old.length) b
        (touched prev a) (restart prev a) (new.drop (restart prev a - base))) := by
  unfold lexResume
  change Option.map Lexed.tokens (if restart prev a < base ∨
    isCharBoundary new (restart prev a - base) = false then none else some _) = _
  split
  · rfl
  · rw [Option.map_some, relexed, ← append_assoc]
    rfl

theorem relexed_eq {base a b i s : Nat} (edit : Edit old new a b) (inside : base ≤ s)
    (within : s - base ≤ new.length) :
    relexed parseFloat lines' (lexWith parseFloat lines old base).tokens
        (new.length - old.length) (b + base) i s (new.drop (s - base)) =
      stream parseFloat lines' (seedPrevEnd (lexWith parseFloat lines old base).tokens i)
        (pieces tokenizer s (new.drop (s - base))) ++ [eofToken lines' (base + new.length)] := by
  unfold relexed
  have spec := resumeLoop_spec (lexWith parseFloat lines old base).tokens
    (new.length - old.length) (b + base) i
    (lexLoop parseFloat lines' (seedPrevEnd (lexWith parseFloat lines old base).tokens i)
      (pieces tokenizer s (new.drop (s - base))))
  dsimp only
  split at spec
  · rename_i none
    rw [none, spec]
    refine congrArg₂ (· ++ ·) rfl ?_
    rw [length_drop, show s + (new.length - (s - base)) = base + new.length by omega]
  · rename_i found some
    obtain ⟨token, later, probe, split, hit⟩ := spec
    rw [some]
    dsimp only
    rw [resync_suffix edit inside split hit, ← append_assoc]
    refine congrArg₂ (· ++ ·) ?_ rfl
    exact split.symm

/-- Where the restart is a position of the new source, re-lexing gives the reused tokens and all
that lexing from there gives. -/
theorem lexResume_tokens {base a b : Nat} (edit : Edit old new a b) {prev : List (Token F)}
    (lexed : prev = (lexWith parseFloat lines old base).tokens) :
    (lexResume parseFloat lines' prev old new base (a + base) (b + base)).map Lexed.tokens =
      if isCharBoundary new (restart prev (a + base) - base) then
        some (reused prev (a + base) ++
          (stream parseFloat lines' (seedPrevEnd prev (touched prev (a + base)))
            (pieces tokenizer (restart prev (a + base))
              (new.drop (restart prev (a + base) - base))) ++
          [eofToken lines' (base + new.length)]))
      else none := by
  obtain ⟨first, member, same⟩ := @restart_of_lexWith F parseFloat lines old base a edit.inOld
  have inside : base ≤ restart prev (a + base) := by
    rw [lexed, same]
    exact base_le_start member
  rw [lexResume_eq]
  by_cases boundary : isCharBoundary new (restart prev (a + base) - base)
  · rw [if_pos boundary, if_neg (by
      rintro (outside | inner)
      · omega
      · rw [boundary] at inner
        cases inner)]
    subst lexed
    rw [relexed_eq edit inside (isCharBoundary_le boundary)]
  · rw [if_neg boundary, if_pos (Or.inr (by simpa using boundary))]

end LichenVm.Lexer
