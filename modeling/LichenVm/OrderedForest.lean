import Mathlib.Data.List.Nodup
import Mathlib.Data.List.Flatten
import Mathlib.Logic.Relation

/-! Ordered forests over vertices that list their kids. -/

open List

namespace LichenVm.OrderedForest

variable {V : Type}

/-- A vertex and those under it to a depth, each before its kids, the kids in their order. -/
def preorder (kids : V → List V) : Nat → V → List V
  | 0, v => [v]
  | depth + 1, v => v :: (kids v).flatMap (preorder kids depth)

/-- A vertex and everything under it. -/
def below (kids : V → List V) (rank : V → Nat) (v : V) : List V := preorder kids (rank v) v

/-- Kids have a smaller rank. -/
def Ranked (kids : V → List V) (rank : V → Nat) : Prop := ∀ v, ∀ w ∈ kids v, rank w < rank v

/-- Every vertex is the kid of one vertex at most, and once. -/
structure Arbor (kids : V → List V) (rank : V → Nat) : Prop where
  ranked : Ranked kids rank
  distinct : ∀ v, (kids v).Nodup
  single : ∀ u v w, w ∈ kids u → w ∈ kids v → u = v

section Ranked

variable {kids : V → List V} {rank : V → Nat}

@[elab_as_elim]
theorem Ranked.induction (ranked : Ranked kids rank) {P : V → Prop}
    (step : ∀ v, (∀ w ∈ kids v, P w) → P v) (v : V) : P v :=
  step v fun w _ => Ranked.induction ranked step w
termination_by rank v
decreasing_by exact ranked v w (by assumption)

section

variable (ranked : Ranked kids rank)

include ranked

theorem preorder_eq_below {depth : Nat} {v : V} (enough : rank v ≤ depth) :
    preorder kids depth v = below kids rank v := by
  induction v using ranked.induction generalizing depth with
  | step v ih =>
    have leaf (bottom : rank v = 0) : kids v = [] := by
      rw [eq_nil_iff_forall_not_mem]
      intro w kid
      have := ranked v w kid
      omega
    unfold below
    cases low : rank v with
    | zero =>
      cases depth with
      | zero => rfl
      | succ depth => rw [preorder, preorder, leaf low]; rfl
    | succ rank' =>
      cases depth with
      | zero => omega
      | succ depth =>
        refine congrArg _ (flatMap_congr fun w kid => ?_)
        have := ranked v w kid
        rw [ih w kid (by omega), ih w kid (by omega)]

theorem below_eq (v : V) : below kids rank v = v :: (kids v).flatMap (below kids rank) := by
  rw [← preorder_eq_below ranked (Nat.le_succ (rank v)), preorder]
  refine congrArg _ (flatMap_congr fun w kid => ?_)
  exact preorder_eq_below ranked (Nat.le_of_lt (ranked v w kid))

theorem self_mem_below (v : V) : v ∈ below kids rank v := by
  rw [below_eq ranked]
  exact mem_cons_self

theorem mem_below_iff {v w : V} :
    w ∈ below kids rank v ↔ Relation.ReflTransGen (fun a b => b ∈ kids a) v w := by
  induction v using ranked.induction with
  | step v ih =>
    rw [below_eq ranked, mem_cons, mem_flatMap]
    constructor
    · rintro (rfl | ⟨kid, inside, under⟩)
      · exact .refl
      · exact ((ih kid inside).1 under).head inside
    · intro path
      rcases path.cases_head with same | ⟨kid, inside, path⟩
      · exact .inl same.symm
      · exact .inr ⟨kid, inside, (ih kid inside).2 path⟩

theorem rank_le_of_mem_below {v w : V} (under : w ∈ below kids rank v) : rank w ≤ rank v := by
  rw [mem_below_iff ranked] at under
  induction under with
  | refl => exact Nat.le_refl _
  | tail _ kid ih => exact Nat.le_trans (Nat.le_of_lt (ranked _ _ kid)) ih

theorem below_trans {u v w : V} (upper : v ∈ below kids rank u) (lower : w ∈ below kids rank v) :
    w ∈ below kids rank u := by
  rw [mem_below_iff ranked] at *
  exact upper.trans lower

end

end Ranked

section Arbor

variable {kids : V → List V} {rank : V → Nat}

section

variable (arbor : Arbor kids rank)

include arbor

theorem Arbor.chain {u v w : V} (one : w ∈ below kids rank u) (two : w ∈ below kids rank v) :
    v ∈ below kids rank u ∨ u ∈ below kids rank v := by
  simp only [mem_below_iff arbor.ranked] at *
  have unique : Relator.RightUnique (Function.swap fun a b : V => b ∈ kids a) :=
    fun w u v up up' => arbor.single u v w up up'
  rcases Relation.ReflTransGen.total_of_right_unique unique
    (Relation.reflTransGen_swap.2 one) (Relation.reflTransGen_swap.2 two) with above | above
  · exact .inr (Relation.reflTransGen_swap.1 above)
  · exact .inl (Relation.reflTransGen_swap.1 above)

theorem Arbor.kids_apart {v w w' x : V} (kid : w ∈ kids v) (kid' : w' ∈ kids v)
    (under : x ∈ below kids rank w) (under' : x ∈ below kids rank w') : w = w' := by
  have never {w w' : V} (kid : w ∈ kids v) (kid' : w' ∈ kids v) (under : w' ∈ below kids rank w) :
      w = w' := by
    rw [mem_below_iff arbor.ranked] at under
    rcases under.cases_tail with same | ⟨u, path, last⟩
    · exact same.symm
    · have parent := arbor.single u v w' last kid'
      have := rank_le_of_mem_below arbor.ranked ((mem_below_iff arbor.ranked).2 path)
      have := arbor.ranked v w kid
      rw [parent] at *
      omega
  rcases arbor.chain under under' with above | above
  · exact never kid kid' above
  · exact (never kid' kid above).symm

theorem Arbor.below_nodup (v : V) : (below kids rank v).Nodup := by
  induction v using arbor.ranked.induction with
  | step v ih =>
    rw [below_eq arbor.ranked, nodup_cons, nodup_flatMap]
    refine ⟨fun inside => ?_, ih, ?_⟩
    · obtain ⟨kid, member, under⟩ := mem_flatMap.1 inside
      have := rank_le_of_mem_below arbor.ranked under
      have := arbor.ranked v kid member
      omega
    · refine (arbor.distinct v).imp_of_mem fun kid kid' apart => ?_
      exact fun x under under' => apart (arbor.kids_apart kid kid' under under')

end

end Arbor

section Reversed

def reversed (kids : V → List V) (v : V) : List V := (kids v).reverse

variable {plain extra : V → List V} {rank : V → Nat}

theorem Arbor.fewer (arbor : Arbor (fun v => plain v ++ extra v) rank) : Arbor plain rank where
  ranked v w kid := arbor.ranked v w (mem_append_left _ kid)
  distinct v := (nodup_append.1 (arbor.distinct v)).1
  single u v w up up' :=
    arbor.single u v w (mem_append_left _ up) (mem_append_left _ up')

theorem Arbor.reversed {kids : V → List V} (arbor : Arbor kids rank) :
    Arbor (reversed kids) rank where
  ranked v w kid := arbor.ranked v w (mem_reverse.1 kid)
  distinct v := nodup_reverse.2 (arbor.distinct v)
  single u v w up up' := arbor.single u v w (mem_reverse.1 up) (mem_reverse.1 up')

theorem mem_below_reversed {kids : V → List V} (ranked : Ranked kids rank) {v w : V} :
    w ∈ below (OrderedForest.reversed kids) rank v ↔ w ∈ below kids rank v := by
  have ranked' : Ranked (OrderedForest.reversed kids) rank :=
    fun v w kid => ranked v w (mem_reverse.1 kid)
  rw [mem_below_iff ranked', mem_below_iff ranked]
  have same : (fun a b => b ∈ OrderedForest.reversed kids a) = fun a b => b ∈ kids a := by
    funext a b
    exact propext mem_reverse
  rw [same]

theorem mem_below_more (arbor : Arbor (fun v => plain v ++ extra v) rank) {v w : V}
    (under : w ∈ below plain rank v) : w ∈ below (fun v => plain v ++ extra v) rank v := by
  rw [mem_below_iff arbor.fewer.ranked] at under
  rw [mem_below_iff arbor.ranked]
  exact Relation.ReflTransGen.mono (fun a b kid => mem_append_left _ kid) _ _ under

/-- The vertex that is over every other one marked. -/
def Leads (under : V → List V) (p : V → Bool) (all : List V) (m : V) : Prop :=
  m ∈ all ∧ ∀ other ∈ all, p other = true → other ∈ under m

/-- The first marked vertex of a row of trees, with more of them after it, is the first met from the
last tree of the row on just when it leads the row. -/
theorem find_row_iff {roots more : List V} {full back under : V → List V} {p : V → Bool} {m : V}
    (nodup : (roots ++ more).Nodup)
    (apart : ∀ c ∈ roots ++ more, ∀ d ∈ roots ++ more, ∀ x ∈ full c, x ∈ full d → c = d)
    (within : ∀ c ∈ roots, ∀ x ∈ under c, x ∈ full c)
    (same : ∀ c ∈ roots, ∀ x, x ∈ back c ↔ x ∈ under c)
    (down : ∀ c ∈ roots, ∀ x ∈ under c, ∀ y ∈ under x, y ∈ under c)
    (each : ∀ c ∈ roots, (full c).find? p = some m →
      ((back c).find? p = some m ↔ Leads under p (under c) m))
    (first : ((roots ++ more).flatMap full).find? p = some m) :
    (roots.reverse.flatMap back).find? p = some m ↔ Leads under p (roots.flatMap under) m := by
  rw [List.find?_flatMap, List.findSome?_eq_some_iff] at first
  obtain ⟨before, home, after, row, found, nowhere⟩ := first
  have homes : home ∈ roots ++ more := row ▸ mem_append_right _ mem_cons_self
  have here : m ∈ full home := mem_of_find?_eq_some found
  have only {c : V} (root : c ∈ roots) (inside : m ∈ under c) : c = home :=
    apart c (mem_append_left _ root) home homes m (within c root m inside) here
  rw [List.find?_flatMap]
  constructor
  · intro met
    obtain ⟨later, c, earlier, split, held, none⟩ := List.findSome?_eq_some_iff.1 met
    have forth : roots = earlier.reverse ++ c :: later.reverse := by
      rw [← reverse_reverse roots, split]
      simp
    have root : c ∈ roots := forth ▸ mem_append_right _ mem_cons_self
    have inside : m ∈ under c := (same c root m).1 (mem_of_find?_eq_some held)
    obtain rfl := only root inside
    have leads := (each c root found).1 held
    refine ⟨mem_flatMap.2 ⟨c, root, inside⟩, fun other member marked => ?_⟩
    obtain ⟨d, root', inside'⟩ := mem_flatMap.1 member
    have split' : earlier.reverse ++ c :: (later.reverse ++ more) = before ++ c :: after := by
      rw [← row, forth]
      simp
    have fresh := nodup
    rw [row, ← split', nodup_middle, nodup_cons, mem_append, not_or] at fresh
    obtain ⟨early, -, -⟩ := (append_cons_inj_of_notMem fresh.1.1 fresh.1.2).1 split'
    rw [forth] at root'
    rcases mem_append.1 root' with left | rest
    · have clean := nowhere d (early ▸ left)
      exact absurd marked (List.find?_eq_none.1 clean other (within d (forth ▸ root') other inside'))
    · rcases mem_cons.1 rest with rfl | right
      · exact leads.2 other inside' marked
      · have clean := none d (mem_reverse.1 right)
        exact absurd marked
          (List.find?_eq_none.1 clean other ((same d (forth ▸ root') other).2 inside'))
  · rintro ⟨inside, leads⟩
    obtain ⟨c, root, inside⟩ := mem_flatMap.1 inside
    obtain rfl := only root inside
    have own : (back c).find? p = some m := (each c root found).2
      ⟨inside, fun other member => leads other (mem_flatMap.2 ⟨c, root, member⟩)⟩
    have others (d : V) (root' : d ∈ roots) (apart' : d ≠ c) : (back d).find? p = none := by
      rw [List.find?_eq_none]
      intro other member marked
      have inside' := (same d root' other).1 member
      have under' := leads other (mem_flatMap.2 ⟨d, root', inside'⟩) marked
      exact apart' (apart d (mem_append_left _ root') c homes other
        (within d root' other inside') (within c root other (down c root m inside other under')))
    obtain ⟨later, earlier, split⟩ := append_of_mem (mem_reverse.2 root)
    refine List.findSome?_eq_some_iff.2 ⟨later, c, earlier, split, own, fun d member => ?_⟩
    have distinct := nodup_reverse.2 (nodup_append.1 nodup).1
    rw [split, nodup_middle, nodup_cons, mem_append, not_or] at distinct
    refine others d (mem_reverse.1 (split ▸ mem_append_left _ member)) fun equal => ?_
    exact distinct.1.1 (equal ▸ member)

/-- The first marked vertex under a vertex, its extra kids counted, is the first met from the last
kid on, without them, just when it leads those under the vertex. -/
theorem find_reversed_iff (arbor : Arbor (fun v => plain v ++ extra v) rank) (p : V → Bool) (v : V)
    {m : V}
    (first : ((plain v ++ extra v).flatMap (below (fun v => plain v ++ extra v) rank)).find? p =
      some m) :
    ((plain v).reverse.flatMap (below (OrderedForest.reversed plain) rank)).find? p = some m ↔
      Leads (below plain rank) p ((plain v).flatMap (below plain rank)) m := by
  induction v using arbor.ranked.induction generalizing m with
  | step v ih =>
    have ranked := arbor.fewer.ranked
    have ranked' := arbor.fewer.reversed.ranked
    refine find_row_iff (arbor.distinct v)
      (fun c kid d kid' x under under' => arbor.kids_apart kid kid' under under')
      (fun c _ x under => mem_below_more arbor under) (fun c _ x => mem_below_reversed ranked)
      (fun c _ x upper y lower => below_trans ranked upper lower) (fun c kid found => ?_) first
    have marked : p m := List.find?_some found
    rw [below_eq arbor.ranked] at found
    rw [below_eq ranked', below_eq ranked]
    by_cases own : p c
    · rw [List.find?_cons_of_pos own] at found ⊢
      cases found
      refine iff_of_true rfl ⟨mem_cons_self, fun other member _ => ?_⟩
      rw [below_eq ranked]
      exact member
    · rw [List.find?_cons_of_neg own] at found ⊢
      refine (ih c (mem_append_left _ kid) found).trans ⟨fun leads => ?_, fun leads => ?_⟩
      · refine ⟨mem_cons_of_mem _ leads.1, fun other member marked' => ?_⟩
        rcases mem_cons.1 member with rfl | member
        · exact absurd marked' own
        · exact leads.2 other member marked'
      · refine ⟨(mem_cons.1 leads.1).resolve_left fun same => own (same ▸ marked), ?_⟩
        exact fun other member => leads.2 other (mem_cons_of_mem _ member)

end Reversed

end LichenVm.OrderedForest
