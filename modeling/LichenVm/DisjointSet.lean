import LichenVm.LinkedList

open List Option

namespace DisjointSet

open LinkedList

/-- The disjoint-set metadata embedded in an entry. `tail` and `size` are meaningful only
at a representative. -/
structure Meta (K : Type) where
  parent : Option K := none
  next : Option K := none
  tail : Option K := none
  size : Nat := 0
  deriving DecidableEq

/-- The same links between the images of the keys. -/
def Meta.map {K K' : Type} (image : K → K') (links : Meta K) : Meta K' where
  parent := links.parent.map image
  next := links.next.map image
  tail := links.tail.map image
  size := links.size

/-- A table whose entries carry a `Meta`, readable and writable at a key. -/
class LinkTable (T : Type) (K : outParam Type) where
  links : T → K → Option (Meta K)
  modifyLinks : T → K → (Meta K → Meta K) → T

export LinkTable (links modifyLinks)

/-- A write at a key is seen at that key and nowhere else, and creates no entry. -/
class LawfulLinkTable (T : Type) (K : outParam Type) [DecidableEq K] [LinkTable T K] : Prop where
  links_modifyLinks : ∀ (t : T) (key other : K) (f : Meta K → Meta K),
    links (modifyLinks t key f) other = if other = key then (links t other).map f else links t other

section Operations

variable {T K : Type} [DecidableEq K] [LinkTable T K]

def parentOf (t : T) (key : K) : Option K := (links t key).bind Meta.parent
def nextOf (t : T) (key : K) : Option K := (links t key).bind Meta.next
def tailOf (t : T) (key : K) : Option K := (links t key).bind Meta.tail
def sizeOf (t : T) (key : K) : Nat := ((links t key).map Meta.size).getD 0

/-- Initialize `key` as the singleton representative of its own set. -/
def makeSet (t : T) (key : K) : T :=
  modifyLinks t key fun _ => { parent := none, next := none, tail := some key, size := 1 }

def setParent (t : T) (key : K) (parent : Option K) : T :=
  modifyLinks t key fun meta' => { meta' with parent }

def setNext (t : T) (key : K) (next : Option K) : T :=
  modifyLinks t key fun meta' => { meta' with next }

def setRoot (t : T) (key : K) (tail : Option K) (size : Nat) : T :=
  modifyLinks t key fun meta' => { meta' with tail, size }

/-- Return the representative of `key`'s set, re-pointing the path at it. The fuel bounds
the climb: a chain longer than it is cut. -/
def find (fuel : Nat) (t : T) (key : K) : K × T :=
  match fuel with
  | 0 => (key, t)
  | fuel + 1 =>
    match parentOf t key with
    | none => (key, t)
    | some parent =>
      let (root, t) := find fuel t parent
      if root ≠ parent then (root, setParent t key (some root)) else (root, t)

/-- The writes of a union whose larger set is `big`, with list ends `ta` and `tb`. -/
def attach (t : T) (big small ta tb : K) (size : Nat) : T :=
  setRoot (setParent (setNext t ta (some small)) small (some big)) big (some tb) size

/-- Attach the smaller set under the larger and splice the member lists. A representative
without a list tail is unreachable and leaves the table alone. -/
def link (t : T) (ra rb : K) : K × T :=
  let (ra, rb) := if sizeOf t ra < sizeOf t rb then (rb, ra) else (ra, rb)
  match tailOf t ra, tailOf t rb with
  | some ta, some tb =>
    let size := sizeOf t ra + sizeOf t rb
    (ra, attach t ra rb ta tb size)
  | _, _ => (ra, t)

/-- Merge the sets of `a` and `b`, returning the representative of the merged set. -/
def union (fuel : Nat) (t : T) (a b : K) : K × T :=
  let (ra, t) := find fuel t a
  let (rb, t) := find fuel t b
  if ra = rb then (ra, t) else link t ra rb

/-- The writes of `rebuild`'s loop over the members behind `previous`. -/
def relink (t : T) (representative previous : K) : List K → T
  | [] => setNext t previous none
  | member :: rest =>
    let t := setNext t previous (some member)
    let t := setParent t member (if member ≠ representative then some representative else none)
    relink t representative member rest

/-- Rewrite a set's member list to exactly `members`, in the order given. -/
def rebuild (t : T) (members : List K) : T :=
  match members with
  | [] => t
  | representative :: rest =>
    let t := setParent t representative none
    let t := relink t representative representative rest
    setRoot t representative (representative :: rest).getLast? (rest.length + 1)

/-- The members from `key` on, in list order; the fuel bounds the walk. -/
def membersFrom (fuel : Nat) (t : T) (key : K) : List K :=
  match fuel with
  | 0 => []
  | fuel + 1 => key :: (match nextOf t key with
      | none => []
      | some next => membersFrom fuel t next)

/-- The key `steps` parents above `key`, stopping at a root. -/
def climb (t : T) : Nat → K → K
  | 0, key => key
  | steps + 1, key =>
    match parentOf t key with
    | none => key
    | some parent => climb t steps parent

/-- The entries `root :: rest` form one set of the table, in member-list order. -/
structure IsClass (t : T) (root : K) (rest : List K) : Prop where
  distinct : (root :: rest).Nodup
  live : ∀ key ∈ root :: rest, (links t key).isSome
  linked : Linked (nextOf t) (root :: rest)
  rooted : parentOf t root = none
  tail : tailOf t root = (root :: rest).getLast?
  size : sizeOf t root = rest.length + 1
  inside : ∀ key ∈ root :: rest, ∀ parent, parentOf t key = some parent → parent ∈ root :: rest
  climbs : ∀ key ∈ root :: rest, climb t rest.length key = root

/-- Every live entry is a member of a set. -/
def WellFormed (t : T) : Prop :=
  ∀ key, (links t key).isSome → ∃ root rest, IsClass t root rest ∧ key ∈ root :: rest

/-- Every `tail` link of a member, a representative's or a leftover, names a member of
the same set. -/
def TailsInside (t : T) : Prop :=
  ∀ root rest, IsClass t root rest → ∀ key ∈ root :: rest, ∀ last,
    tailOf t key = some last → last ∈ root :: rest

end Operations

section Sets

variable {T K : Type} [LinkTable T K]

/-- Two tables hold the same links at every member of `members`. -/
def Agrees (t t' : T) (members : List K) : Prop :=
  ∀ key ∈ members, links t' key = links t key

variable {members : List K} {key : K}

section

variable {t t' : T} (agrees : Agrees t t' members) (member : key ∈ members)

include agrees member

theorem Agrees.parentOf : parentOf t' key = DisjointSet.parentOf t key := by
  simp only [DisjointSet.parentOf, agrees key member]

theorem Agrees.nextOf : nextOf t' key = DisjointSet.nextOf t key := by
  simp only [DisjointSet.nextOf, agrees key member]

theorem Agrees.tailOf : tailOf t' key = DisjointSet.tailOf t key := by
  simp only [DisjointSet.tailOf, agrees key member]

theorem Agrees.sizeOf : sizeOf t' key = DisjointSet.sizeOf t key := by
  simp only [DisjointSet.sizeOf, agrees key member]

end

theorem climb_zero (t : T) (key : K) : climb t 0 key = key := rfl

theorem climb_root (t : T) (steps : Nat) (root : K) (rooted : parentOf t root = none) :
    climb t steps root = root := by
  cases steps <;> simp [climb, rooted]

theorem climb_succ (t : T) (steps : Nat) (key parent : K) (up : parentOf t key = some parent) :
    climb t (steps + 1) key = climb t steps parent := by
  simp [climb, up]

theorem climb_mono (t : T) (steps more : Nat) (key root : K) (rooted : parentOf t root = none)
    (reaches : climb t steps key = root) (longer : steps ≤ more) : climb t more key = root := by
  induction steps generalizing key more with
  | zero =>
    rw [climb_zero] at reaches
    rw [reaches]
    exact climb_root t more root rooted
  | succ steps ih =>
    obtain ⟨more, rfl⟩ : ∃ less, more = less + 1 := ⟨more - 1, by omega⟩
    cases up : parentOf t key with
    | none =>
      have same : key = root := by simpa [climb, up] using reaches
      rw [same]
      exact climb_root t _ root rooted
    | some parent =>
      rw [climb_succ t _ key parent up] at reaches ⊢
      exact ih more parent reaches (by omega)

theorem climb_congr {t t' : T}
    (inside : ∀ key ∈ members, ∀ parent, parentOf t key = some parent → parent ∈ members)
    (same : ∀ key ∈ members, parentOf t' key = parentOf t key) (steps : Nat) (key : K)
    (member : key ∈ members) : climb t' steps key = climb t steps key := by
  induction steps generalizing key with
  | zero => rfl
  | succ steps ih =>
    cases up : parentOf t key with
    | none => simp [climb, same key member, up]
    | some parent =>
      rw [climb_succ t _ key parent up, climb_succ t' _ key parent (by rw [same key member, up])]
      exact ih parent (inside key member parent up)

namespace IsClass

variable {t t' : T} {root : K} {rest : List K}

theorem root_mem (_ : IsClass t root rest) : root ∈ root :: rest := mem_cons_self

theorem congr (cls : IsClass t root rest) (agrees : Agrees t t' (root :: rest)) :
    IsClass t' root rest where
  distinct := cls.distinct
  live key member := by rw [agrees key member]; exact cls.live key member
  linked := cls.linked.congr fun _ member => agrees.nextOf member
  rooted := by rw [agrees.parentOf cls.root_mem]; exact cls.rooted
  tail := by rw [agrees.tailOf cls.root_mem]; exact cls.tail
  size := by rw [agrees.sizeOf cls.root_mem]; exact cls.size
  inside key member parent up := by
    rw [agrees.parentOf member] at up
    exact cls.inside key member parent up
  climbs key member := by
    rw [climb_congr cls.inside (fun _ member => agrees.parentOf member) _ key member]
    exact cls.climbs key member

end IsClass

theorem IsClass.unique {t : T} {first second : K} {rest rest' : List K}
    (one : IsClass t first rest) (two : IsClass t second rest')
    (left : key ∈ first :: rest) (right : key ∈ second :: rest') :
    first = second ∧ rest = rest' := by
  have top : first = second := by
    rw [← climb_mono t _ (max rest.length rest'.length) key first one.rooted
        (one.climbs key left) (Nat.le_max_left _ _),
      climb_mono t _ (max rest.length rest'.length) key second two.rooted
        (two.climbs key right) (Nat.le_max_right _ _)]
  refine ⟨top, ?_⟩
  have same := Linked.determined one.linked two.linked (by simp [top])
  exact (List.cons.inj same).2

/-- A table that holds the images of a set's links holds the image of the set. -/
theorem IsClass.image {T' K' : Type} [LinkTable T' K'] {t : T} {t' : T'} {root : K}
    {rest : List K} (cls : IsClass t root rest) (image : K → K')
    (injective : ∀ a ∈ root :: rest, ∀ b ∈ root :: rest, image a = image b → a = b)
    (same : ∀ key ∈ root :: rest, links t' (image key) = (links t key).map (Meta.map image)) :
    IsClass t' (image root) (rest.map image) := by
  have parents : ∀ key ∈ root :: rest, parentOf t' (image key) = (parentOf t key).map image := by
    intro key member
    simp only [parentOf, same key member]
    cases links t key <;> rfl
  have nexts : ∀ key ∈ root :: rest, nextOf t' (image key) = (nextOf t key).map image := by
    intro key member
    simp only [nextOf, same key member]
    cases links t key <;> rfl
  have walk : ∀ steps, ∀ key ∈ root :: rest, climb t' steps (image key) = image (climb t steps key) := by
    intro steps
    induction steps with
    | zero => exact fun _ _ => rfl
    | succ steps ih =>
      intro key member
      simp only [climb, parents key member]
      cases up : parentOf t key with
      | none => rfl
      | some parent => exact ih parent (cls.inside key member parent up)
  have chain : ∀ members : List K, (∀ key ∈ members, key ∈ root :: rest) →
      Linked (nextOf t) members → Linked (nextOf t') (members.map image) := by
    intro members inside linked
    induction members with
    | nil => trivial
    | cons key behind ih =>
      refine ⟨?_, ih (fun other member => inside other (mem_cons_of_mem _ member)) linked.2⟩
      rw [nexts key (inside key mem_cons_self), linked.1, List.head?_map]
  refine ⟨?_, ?_, chain (root :: rest) (fun _ member => member) cls.linked, ?_, ?_, ?_, ?_, ?_⟩
  · rw [← map_cons]
    exact (nodup_map_iff_inj_on cls.distinct).2 injective
  · intro key member
    obtain ⟨key, inside, rfl⟩ := mem_map.1 (by simpa using member : key ∈ (root :: rest).map image)
    rw [same key inside, isSome_map]
    exact cls.live key inside
  · rw [parents root cls.root_mem, cls.rooted]
    rfl
  · have tails : tailOf t' (image root) = (tailOf t root).map image := by
      simp only [tailOf, same root cls.root_mem]
      cases links t root <;> rfl
    rw [tails, cls.tail, ← List.getLast?_map, map_cons]
  · have sizes : sizeOf t' (image root) = sizeOf t root := by
      simp only [sizeOf, same root cls.root_mem]
      cases links t root <;> rfl
    rw [sizes, cls.size, length_map]
  · intro key member parent up
    obtain ⟨key, inside, rfl⟩ := mem_map.1 (by simpa using member : key ∈ (root :: rest).map image)
    rw [parents key inside] at up
    obtain ⟨above, found, rfl⟩ := map_eq_some_iff.1 up
    exact mem_map.2 ⟨above, cls.inside key inside above found, rfl⟩
  · intro key member
    obtain ⟨key, inside, rfl⟩ := mem_map.1 (by simpa using member : key ∈ (root :: rest).map image)
    rw [length_map, walk _ key inside, cls.climbs key inside]

variable {t t' : T} {root : K} {rest : List K}

/-- `t'` differs from `t` in `parent` links alone, and keeps every set. -/
structure Compresses (t t' : T) : Prop where
  live : ∀ key, (links t' key).isSome = (links t key).isSome
  next : ∀ key, nextOf t' key = nextOf t key
  tail : ∀ key, tailOf t' key = tailOf t key
  size : ∀ key, sizeOf t' key = sizeOf t key
  classes : ∀ root rest, IsClass t root rest → IsClass t' root rest

theorem Compresses.refl (t : T) : Compresses t t :=
  ⟨fun _ => rfl, fun _ => rfl, fun _ => rfl, fun _ => rfl, fun _ _ cls => cls⟩

theorem Compresses.of_links (same : ∀ key, links t' key = links t key) : Compresses t t' where
  live key := by rw [same]
  next key := by simp only [nextOf, same]
  tail key := by simp only [tailOf, same]
  size key := by simp only [sizeOf, same]
  classes _ _ cls := cls.congr fun key _ => same key

theorem Compresses.trans {first second third : T} (one : Compresses first second)
    (two : Compresses second third) : Compresses first third where
  live key := (two.live key).trans (one.live key)
  next key := (two.next key).trans (one.next key)
  tail key := (two.tail key).trans (one.tail key)
  size key := (two.size key).trans (one.size key)
  classes root rest cls := two.classes root rest (one.classes root rest cls)

theorem WellFormed.compresses (formed : WellFormed t) (step : Compresses t t') : WellFormed t' := by
  intro key live
  obtain ⟨root, rest, cls, member⟩ := formed key (by rw [← step.live key]; exact live)
  exact ⟨root, rest, step.classes root rest cls, member⟩

theorem Compresses.classes_iff (formed : WellFormed t) (step : Compresses t t')
    (root : K) (rest : List K) : IsClass t' root rest ↔ IsClass t root rest := by
  refine ⟨fun cls => ?_, step.classes root rest⟩
  obtain ⟨root', rest', old, member⟩ :=
    formed root (by rw [← step.live root]; exact cls.live root cls.root_mem)
  obtain ⟨rfl, rfl⟩ := cls.unique (step.classes root' rest' old) cls.root_mem member
  exact old

theorem IsClass.disjoint {first second : K} {rest' : List K}
    (one : IsClass t first rest) (two : IsClass t second rest') (apart : first ≠ second)
    (left : key ∈ first :: rest) : key ∉ second :: rest' :=
  fun right => apart (one.unique two left right).1

/-- `t'` holds one set `root :: rest` where `t` held the sets of `a` and `b`. -/
structure Joins (t t' : T) (a : K) (la : List K) (b : K) (lb : List K) (root : K)
    (rest : List K) : Prop where
  live : ∀ key, (links t' key).isSome = (links t key).isSome
  merged : IsClass t' root rest
  members : (root :: rest).Perm ((a :: la) ++ (b :: lb))
  others : ∀ other tail, IsClass t other tail → other ≠ a → other ≠ b → IsClass t' other tail
  tails : ∀ key last, tailOf t' key = some last →
    tailOf t key = some last ∨ (key = root ∧ last ∈ root :: rest)

variable {a b : K} {la lb : List K}

theorem Joins.symm (joins : Joins t t' a la b lb root rest) : Joins t t' b lb a la root rest :=
  { joins with
    members := joins.members.trans perm_append_comm
    others := fun other tail cls left right => joins.others other tail cls right left }

theorem Joins.after {middle : T}
    (joins : Joins middle t' a la b lb root rest) (step : Compresses t middle) :
    Joins t t' a la b lb root rest where
  live key := (joins.live key).trans (step.live key)
  merged := joins.merged
  members := joins.members
  others other tail cls := joins.others other tail (step.classes other tail cls)
  tails key last found := by
    rw [← step.tail key]
    exact joins.tails key last found

theorem Joins.before {middle : T}
    (joins : Joins t middle a la b lb root rest) (step : Compresses middle t') :
    Joins t t' a la b lb root rest where
  live key := (step.live key).trans (joins.live key)
  merged := step.classes root rest joins.merged
  members := joins.members
  others other tail cls left right :=
    step.classes other tail (joins.others other tail cls left right)
  tails key last found := by
    rw [step.tail key] at found
    exact joins.tails key last found

section

variable (formed : WellFormed t) (one : IsClass t a la) (two : IsClass t b lb)
  (joins : Joins t t' a la b lb root rest)

include formed one two joins

theorem Joins.wellFormed : WellFormed t' := by
  intro key lives
  obtain ⟨other, tail, cls, member⟩ := formed key (by rw [← joins.live key]; exact lives)
  by_cases left : other = a
  · subst left
    obtain ⟨-, rfl⟩ := cls.unique one cls.root_mem one.root_mem
    exact ⟨root, rest, joins.merged, joins.members.mem_iff.2 (mem_append_left _ member)⟩
  · by_cases right : other = b
    · subst right
      obtain ⟨-, rfl⟩ := cls.unique two cls.root_mem two.root_mem
      exact ⟨root, rest, joins.merged, joins.members.mem_iff.2 (mem_append_right _ member)⟩
    · exact ⟨other, tail, joins.others other tail cls left right, member⟩

theorem Joins.classes {other : K} {tail : List K} (cls : IsClass t' other tail) :
    (other = root ∧ tail = rest) ∨ (IsClass t other tail ∧ other ≠ a ∧ other ≠ b) := by
  obtain ⟨old, oldTail, oldCls, member⟩ :=
    formed other (by rw [← joins.live other]; exact cls.live other cls.root_mem)
  by_cases left : old = a
  · subst left
    obtain ⟨-, rfl⟩ := oldCls.unique one oldCls.root_mem one.root_mem
    exact Or.inl (cls.unique joins.merged cls.root_mem
      (joins.members.mem_iff.2 (mem_append_left _ member)))
  · by_cases right : old = b
    · subst right
      obtain ⟨-, rfl⟩ := oldCls.unique two oldCls.root_mem two.root_mem
      exact Or.inl (cls.unique joins.merged cls.root_mem
        (joins.members.mem_iff.2 (mem_append_right _ member)))
    · obtain ⟨rfl, rfl⟩ := cls.unique (joins.others old oldTail oldCls left right)
        cls.root_mem member
      exact Or.inr ⟨oldCls, left, right⟩

end

theorem TailsInside.compresses (formed : WellFormed t) (tails : TailsInside t)
    (step : Compresses t t') : TailsInside t' := by
  intro root rest cls key member last found
  rw [step.tail key] at found
  exact tails root rest ((step.classes_iff formed root rest).1 cls) key member last found

theorem TailsInside.joins (formed : WellFormed t)
    (tails : TailsInside t) (one : IsClass t a la) (two : IsClass t b lb)
    (joins : Joins t t' a la b lb root rest) : TailsInside t' := by
  intro other tail cls key member last found
  rcases joins.classes formed one two cls with ⟨rfl, rfl⟩ | ⟨old, -, -⟩
  · rcases joins.tails key last found with before | ⟨-, inside⟩
    · rw [joins.members.mem_iff]
      rcases mem_append.1 (joins.members.mem_iff.1 member) with left | right
      · exact mem_append_left _ (tails a la one key left last before)
      · exact mem_append_right _ (tails b lb two key right last before)
    · exact inside
  · rcases joins.tails key last found with before | ⟨same, inside⟩
    · exact tails other tail old key member last before
    · subst same
      obtain ⟨rfl, rfl⟩ := cls.unique joins.merged member joins.merged.root_mem
      exact inside

theorem membersFrom_linked (t : T) (rest : List K) (key : K) (linked : Linked (nextOf t) (key :: rest))
    (fuel : Nat) (enough : rest.length < fuel) : membersFrom fuel t key = key :: rest := by
  induction rest generalizing key fuel with
  | nil =>
    obtain ⟨fuel, rfl⟩ : ∃ less, fuel = less + 1 := ⟨fuel - 1, by omega⟩
    have ends : nextOf t key = none := linked.1
    simp [membersFrom, ends]
  | cons next rest ih =>
    obtain ⟨fuel, rfl⟩ : ∃ less, fuel = less + 1 := ⟨fuel - 1, by omega⟩
    have edge : nextOf t key = some next := linked.1
    simp only [membersFrom, edge]
    rw [ih next linked.2 fuel (by simp at enough; omega)]

end Sets

section Writes

variable {T K : Type} [DecidableEq K] [LinkTable T K] [LawfulLinkTable T K]

@[simp] theorem links_modifyLinks (t : T) (key other : K) (f : Meta K → Meta K) :
    links (modifyLinks t key f) other =
      if other = key then (links t other).map f else links t other :=
  LawfulLinkTable.links_modifyLinks t key other f

theorem isSome_modifyLinks (t : T) (key other : K) (f : Meta K → Meta K) :
    (links (modifyLinks t key f) other).isSome = (links t other).isSome := by
  rw [links_modifyLinks]
  split <;> simp

@[simp] theorem parentOf_setParent (t : T) (key other : K) (parent : Option K) :
    parentOf (setParent t key parent) other =
      if other = key ∧ (links t key).isSome then parent else parentOf t other := by
  simp only [parentOf, setParent, links_modifyLinks]
  by_cases same : other = key
  · subst same
    cases links t other <;> simp
  · simp [same]

@[simp] theorem nextOf_setParent (t : T) (key other : K) (parent : Option K) :
    nextOf (setParent t key parent) other = nextOf t other := by
  simp only [nextOf, setParent, links_modifyLinks]
  split
  · cases links t other <;> rfl
  · rfl

@[simp] theorem tailOf_setParent (t : T) (key other : K) (parent : Option K) :
    tailOf (setParent t key parent) other = tailOf t other := by
  simp only [tailOf, setParent, links_modifyLinks]
  split
  · cases links t other <;> rfl
  · rfl

@[simp] theorem sizeOf_setParent (t : T) (key other : K) (parent : Option K) :
    sizeOf (setParent t key parent) other = sizeOf t other := by
  simp only [sizeOf, setParent, links_modifyLinks]
  split
  · cases links t other <;> rfl
  · rfl

@[simp] theorem isSome_setParent (t : T) (key other : K) (parent : Option K) :
    (links (setParent t key parent) other).isSome = (links t other).isSome :=
  isSome_modifyLinks t key other _

@[simp] theorem nextOf_setNext (t : T) (key other : K) (next : Option K) :
    nextOf (setNext t key next) other =
      if other = key ∧ (links t key).isSome then next else nextOf t other := by
  simp only [nextOf, setNext, links_modifyLinks]
  by_cases same : other = key
  · subst same
    cases links t other <;> simp
  · simp [same]

@[simp] theorem parentOf_setNext (t : T) (key other : K) (next : Option K) :
    parentOf (setNext t key next) other = parentOf t other := by
  simp only [parentOf, setNext, links_modifyLinks]
  split
  · cases links t other <;> rfl
  · rfl

@[simp] theorem tailOf_setNext (t : T) (key other : K) (next : Option K) :
    tailOf (setNext t key next) other = tailOf t other := by
  simp only [tailOf, setNext, links_modifyLinks]
  split
  · cases links t other <;> rfl
  · rfl

@[simp] theorem isSome_setNext (t : T) (key other : K) (next : Option K) :
    (links (setNext t key next) other).isSome = (links t other).isSome :=
  isSome_modifyLinks t key other _

@[simp] theorem tailOf_setRoot (t : T) (key other : K) (tail : Option K) (size : Nat) :
    tailOf (setRoot t key tail size) other =
      if other = key ∧ (links t key).isSome then tail else tailOf t other := by
  simp only [tailOf, setRoot, links_modifyLinks]
  by_cases same : other = key
  · subst same
    cases links t other <;> simp
  · simp [same]

@[simp] theorem sizeOf_setRoot (t : T) (key other : K) (tail : Option K) (size : Nat) :
    sizeOf (setRoot t key tail size) other =
      if other = key ∧ (links t key).isSome then size else sizeOf t other := by
  simp only [sizeOf, setRoot, links_modifyLinks]
  by_cases same : other = key
  · subst same
    cases links t other <;> simp
  · simp [same]

@[simp] theorem parentOf_setRoot (t : T) (key other : K) (tail : Option K) (size : Nat) :
    parentOf (setRoot t key tail size) other = parentOf t other := by
  simp only [parentOf, setRoot, links_modifyLinks]
  split
  · cases links t other <;> rfl
  · rfl

@[simp] theorem nextOf_setRoot (t : T) (key other : K) (tail : Option K) (size : Nat) :
    nextOf (setRoot t key tail size) other = nextOf t other := by
  simp only [nextOf, setRoot, links_modifyLinks]
  split
  · cases links t other <;> rfl
  · rfl

@[simp] theorem isSome_setRoot (t : T) (key other : K) (tail : Option K) (size : Nat) :
    (links (setRoot t key tail size) other).isSome = (links t other).isSome :=
  isSome_modifyLinks t key other _

theorem Agrees.modifyLinks (t : T) (key : K) (f : Meta K → Meta K) (members : List K)
    (outside : key ∉ members) : Agrees t (modifyLinks t key f) members := by
  intro other member
  rw [links_modifyLinks, if_neg]
  rintro rfl
  exact outside member

variable {t t' : T} {root key a b : K} {rest la lb : List K}

/-- Re-pointing a member at its own representative keeps the set. -/
theorem IsClass.setParent_root (cls : IsClass t root rest) (member : key ∈ root :: rest) (below :
    key ≠ root) :
    IsClass (setParent t key (some root)) root rest := by
  have up : ∀ other, parentOf (setParent t key (some root)) other =
      if other = key then some root else parentOf t other := by
    intro other
    simp [cls.live key member]
  refine
    { distinct := cls.distinct
      live := fun other found => by rw [isSome_setParent]; exact cls.live other found
      linked := cls.linked.congr fun other _ => nextOf_setParent t key other _
      rooted := by rw [up, if_neg (Ne.symm below)]; exact cls.rooted
      tail := by rw [tailOf_setParent]; exact cls.tail
      size := by rw [sizeOf_setParent]; exact cls.size
      inside := ?_
      climbs := ?_ }
  · intro other found parent edge
    rw [up] at edge
    split at edge
    · cases edge
      exact cls.root_mem
    · exact cls.inside other found parent edge
  · -- A climb of the old table reaches the root; the new edge only shortens it.
    have shorter : ∀ steps other, other ∈ root :: rest → climb t steps other = root →
        climb (setParent t key (some root)) steps other = root := by
      intro steps
      induction steps with
      | zero => exact fun other _ reaches => reaches
      | succ steps ih =>
        intro other found reaches
        by_cases same : other = key
        · rw [climb_succ _ steps other root (by rw [up, if_pos same])]
          exact climb_root _ steps root (by rw [up, if_neg (Ne.symm below)]; exact cls.rooted)
        · cases edge : parentOf t other with
          | none =>
            have top : other = root := by simpa [climb, edge] using reaches
            rw [top]
            exact climb_root _ _ root (by rw [up, if_neg (Ne.symm below)]; exact cls.rooted)
          | some parent =>
            rw [climb_succ t steps other parent edge] at reaches
            rw [climb_succ _ steps other parent (by rw [up, if_neg same]; exact edge)]
            exact ih parent (cls.inside other found parent edge) reaches
    exact fun other found => shorter _ other found (cls.climbs other found)

theorem Compresses.setParent (cls : IsClass t root rest) (member : key ∈ root :: rest) (below :
    key ≠ root) :
    Compresses t (setParent t key (some root)) where
  live other := isSome_setParent t key other _
  next other := nextOf_setParent t key other _
  tail other := tailOf_setParent t key other _
  size other := sizeOf_setParent t key other _
  classes root' rest' other := by
    by_cases shared : key ∈ root' :: rest'
    · obtain ⟨rfl, rfl⟩ := cls.unique other member shared
      exact cls.setParent_root member below
    · exact other.congr (Agrees.modifyLinks t key _ _ shared)

/-- A find whose fuel covers the climb returns the representative and keeps every set. -/
theorem find_spec (fuel : Nat) (t : T) (key root : K) (rest : List K)
    (cls : IsClass t root rest) (member : key ∈ root :: rest)
    (reaches : climb t fuel key = root) :
    (find fuel t key).1 = root ∧ Compresses t (find fuel t key).2 := by
  induction fuel generalizing key with
  | zero => exact ⟨reaches, Compresses.refl t⟩
  | succ fuel ih =>
    cases up : parentOf t key with
    | none =>
      have top : key = root := by simpa [climb, up] using reaches
      simp only [find, up]
      exact ⟨top, Compresses.refl t⟩
    | some parent =>
      rw [climb_succ t fuel key parent up] at reaches
      have found := ih parent (cls.inside key member parent up) reaches
      simp only [find, up]
      rw [found.1]
      by_cases same : root = parent
      · rw [if_neg (not_not_intro same)]
        exact ⟨rfl, found.2⟩
      · have below : key ≠ root := by
          rintro rfl
          rw [cls.rooted] at up
          cases up
        rw [if_pos same]
        exact ⟨rfl, found.2.trans
          (Compresses.setParent (found.2.classes root rest cls) member below)⟩

theorem IsClass.find (cls : IsClass t root rest)
    (member : key ∈ root :: rest) (fuel : Nat) (enough : rest.length ≤ fuel) :
    (find fuel t key).1 = root ∧ Compresses t (find fuel t key).2 :=
  find_spec fuel t key root rest cls member
    (climb_mono t _ fuel key root cls.rooted (cls.climbs key member) enough)

omit [LawfulLinkTable T K] in
theorem find_rooted (fuel : Nat) (t : T) (key : K) (rooted : parentOf t key = none) :
    DisjointSet.find fuel t key = (key, t) := by
  cases fuel <;> simp [DisjointSet.find, rooted]

omit [LawfulLinkTable T K] in
theorem union_rooted (fuel : Nat) (t : T) (a b : K) (left : parentOf t a = none)
    (right : parentOf t b = none) :
    DisjointSet.union fuel t a b = if a = b then (a, t) else link t a b := by
  simp only [DisjointSet.union, find_rooted fuel t a left, find_rooted fuel t b right]

theorem attach_joins {big small ta tb : K} {ls : List K} (one : IsClass t big lb)
    (two : IsClass t small ls) (apart : big ≠ small) (ta_last : tailOf t big = some ta)
    (tb_last : tailOf t small = some tb) :
    Joins t (attach t big small ta tb (sizeOf t big + sizeOf t small)) big lb small ls
      big (lb ++ small :: ls) := by
  have ends : (big :: lb).getLast? = some ta := by rw [← one.tail, ta_last]
  have ends' : (small :: ls).getLast? = some tb := by rw [← two.tail, tb_last]
  have ta_mem : ta ∈ big :: lb := mem_of_getLast? ends
  have tb_mem : tb ∈ small :: ls := mem_of_getLast? ends'
  have away : ∀ {key}, key ∈ big :: lb → key ∉ small :: ls := fun left =>
    one.disjoint two apart left
  have up : ∀ key, parentOf (attach t big small ta tb (sizeOf t big + sizeOf t small)) key =
      if key = small then some big else parentOf t key := by
    intro key
    simp [attach, two.live small two.root_mem]
  have past : ∀ key, nextOf (attach t big small ta tb (sizeOf t big + sizeOf t small)) key =
      if key = ta then some small else nextOf t key := by
    intro key
    simp [attach, one.live ta ta_mem]
  have seam : big :: (lb ++ small :: ls) = (big :: lb) ++ (small :: ls) := rfl
  have split : ∀ {key}, key ∈ big :: (lb ++ small :: ls) →
      key ∈ big :: lb ∨ key ∈ small :: ls := fun found => mem_append.1 (seam ▸ found)
  have left_climb : ∀ key ∈ big :: lb, climb (attach t big small ta tb
      (sizeOf t big + sizeOf t small)) lb.length key = big := by
    intro key member
    rw [climb_congr one.inside ?_ _ key member]
    · exact one.climbs key member
    · intro other found
      rw [up, if_neg]
      rintro rfl
      exact away found two.root_mem
  have top : parentOf (attach t big small ta tb (sizeOf t big + sizeOf t small)) big = none := by
    rw [up, if_neg apart]
    exact one.rooted
  have right_climb : ∀ steps, ∀ key ∈ small :: ls, climb t steps key = small →
      climb (attach t big small ta tb (sizeOf t big + sizeOf t small)) (steps + 1) key = big := by
    intro steps
    induction steps with
    | zero =>
      intro key _ reaches
      obtain rfl : key = small := reaches
      rw [climb_succ _ 0 key big (by rw [up, if_pos rfl])]
      rfl
    | succ steps ih =>
      intro key member reaches
      by_cases same : key = small
      · rw [climb_succ _ _ key big (by rw [up, if_pos same])]
        exact climb_root _ _ big top
      · cases edge : parentOf t key with
        | none => exact absurd (by simpa [climb, edge] using reaches) same
        | some parent =>
          rw [climb_succ t steps key parent edge] at reaches
          rw [climb_succ _ _ key parent (by rw [up, if_neg same]; exact edge)]
          exact ih parent (two.inside key member parent edge) reaches
  refine
    { live := fun key => by simp [attach]
      merged := ?_
      members := by rw [seam]
      others := ?_
      tails := ?_ }
  · refine
      { distinct := ?_
        live := ?_
        linked := ?_
        rooted := top
        tail := ?_
        size := ?_
        inside := ?_
        climbs := ?_ }
    · rw [seam, nodup_append]
      refine ⟨one.distinct, two.distinct, ?_⟩
      rintro key left _ right rfl
      exact away left right
    · intro key member
      have lives : (links t key).isSome := by
        rcases split member with left | right
        · exact one.live key left
        · exact two.live key right
      simpa [attach] using lives
    · rw [seam]
      refine Linked.append _ _ ta ends one.distinct (by rw [past, if_pos rfl]; rfl)
        (fun key _ other => by rw [past, if_neg other]) one.linked ?_
      refine two.linked.congr ?_
      intro key member
      rw [past, if_neg]
      rintro rfl
      exact away ta_mem member
    · rw [seam, List.getLast?_append_of_ne_nil _ (by simp), ends']
      simp [attach, one.live big one.root_mem]
    · have lives := one.live big one.root_mem
      simp [attach, lives, one.size, two.size]
      omega
    · intro key member parent edge
      rw [up] at edge
      split at edge
      · cases edge
        exact mem_cons_self
      · rw [seam]
        rcases split member with left | right
        · exact mem_append_left _ (one.inside key left parent edge)
        · exact mem_append_right _ (two.inside key right parent edge)
    · intro key member
      rcases split member with left | right
      · exact climb_mono _ _ _ key big top (left_climb key left) (by simp)
      · exact climb_mono _ _ _ key big top
          (right_climb ls.length key right (two.climbs key right)) (by simp)
  · intro other tail cls left right
    refine cls.congr fun key member => ?_
    have not_big : key ≠ big := by
      rintro rfl
      exact cls.disjoint one left member one.root_mem
    have not_small : key ≠ small := by
      rintro rfl
      exact cls.disjoint two right member two.root_mem
    have not_ta : key ≠ ta := by
      rintro rfl
      exact cls.disjoint one left member ta_mem
    simp [attach, setRoot, setParent, setNext, not_big, not_small, not_ta]
  · intro key last
    have lives := one.live big one.root_mem
    by_cases same : key = big
    · subst same
      intro found
      refine Or.inr ⟨rfl, ?_⟩
      obtain rfl : tb = last := by simpa [attach, lives] using found
      rw [seam]
      exact mem_append_right _ tb_mem
    · intro found
      exact Or.inl (by simpa [attach, same] using found)

theorem link_joins {ra rb : K} (one : IsClass t ra la) (two : IsClass t rb lb) (apart : ra ≠ rb) :
    ∃ rest, Joins t (link t ra rb).2 ra la rb lb (link t ra rb).1 rest := by
  obtain ⟨ta, ta_last⟩ : ∃ ta, tailOf t ra = some ta := by
    rw [one.tail]
    exact ⟨_, List.getLast?_eq_some_getLast (by simp)⟩
  obtain ⟨tb, tb_last⟩ : ∃ tb, tailOf t rb = some tb := by
    rw [two.tail]
    exact ⟨_, List.getLast?_eq_some_getLast (by simp)⟩
  by_cases smaller : sizeOf t ra < sizeOf t rb
  · simp only [link, if_pos smaller, ta_last, tb_last]
    exact ⟨_, (attach_joins two one (Ne.symm apart) tb_last ta_last).symm⟩
  · simp only [link, if_neg smaller, ta_last, tb_last]
    exact ⟨_, attach_joins one two apart ta_last tb_last⟩

theorem makeSet_isClass (t : T) (key : K) (live : (links t key).isSome) :
    IsClass (makeSet t key) key [] := by
  obtain ⟨links', found⟩ := isSome_iff_exists.1 live
  have at_key : links (makeSet t key) key =
      some { parent := none, next := none, tail := some key, size := 1 } := by
    simp [makeSet, found]
  refine
    { distinct := by simp
      live := by simp [at_key]
      linked := by simp [Linked, nextOf, at_key]
      rooted := by simp [parentOf, at_key]
      tail := by simp [tailOf, at_key]
      size := by simp [sizeOf, at_key]
      inside := by simp [parentOf, at_key]
      climbs := by simp [climb] }

section

variable (representative : K) (rest : List K)

theorem relink_agrees :
    ∀ (t : T) (previous key : K), key ≠ previous → key ∉ rest →
      links (relink t representative previous rest) key = links t key := by
  induction rest with
  | nil =>
    intro t previous key apart _
    simp [relink, setNext, apart]
  | cons member rest ih =>
    intro t previous key apart outside
    obtain ⟨other, behind⟩ := not_or.1 (mt mem_cons.2 outside)
    rw [relink, ih _ member key other behind]
    simp [setParent, setNext, apart, other]

theorem relink_live : ∀ (t : T) (previous key : K),
      (links (relink t representative previous rest) key).isSome = (links t key).isSome := by
  induction rest with
  | nil =>
    intro t previous key
    simp [relink]
  | cons member rest ih =>
    intro t previous key
    rw [relink, ih]
    simp

theorem relink_parent :
    ∀ (t : T) (previous key : K), representative ∉ rest →
      (∀ member ∈ rest, (links t member).isSome) →
      parentOf (relink t representative previous rest) key =
        if key ∈ rest then some representative else parentOf t key := by
  induction rest with
  | nil =>
    intro t previous key _ _
    simp [relink]
  | cons member rest ih =>
    intro t previous key outside live
    obtain ⟨other, behind⟩ := not_or.1 (mt mem_cons.2 outside)
    rw [relink, ih _ member key behind (by simpa using fun k found => live k (mem_cons_of_mem _ found))]
    by_cases found : key ∈ rest
    · simp [found]
    · by_cases same : key = member
      · subst same
        simp [found, live key mem_cons_self, Ne.symm other]
      · simp [found, same]

theorem relink_tail : ∀ (t : T) (previous key : K),
      tailOf (relink t representative previous rest) key = tailOf t key := by
  induction rest with
  | nil =>
    intro t previous key
    simp [relink]
  | cons member rest ih =>
    intro t previous key
    rw [relink, ih]
    simp

theorem relink_linked :
    ∀ (t : T) (previous : K), (previous :: rest).Nodup →
      (∀ member ∈ previous :: rest, (links t member).isSome) →
      Linked (nextOf (relink t representative previous rest)) (previous :: rest) := by
  induction rest with
  | nil =>
    intro t previous _ live
    simp [relink, Linked, live previous mem_cons_self]
  | cons member rest ih =>
    intro t previous distinct live
    obtain ⟨outside, distinct'⟩ := nodup_cons.1 distinct
    have lives := live previous mem_cons_self
    refine ⟨?_, ?_⟩
    · obtain ⟨other, behind⟩ := not_or.1 (mt mem_cons.2 outside)
      rw [relink, nextOf, relink_agrees representative rest _ member previous other behind]
      obtain ⟨found, eq⟩ := isSome_iff_exists.1 lives
      simp [setParent, setNext, other, eq]
    · rw [relink]
      exact ih _ member distinct' (by simpa using fun k found => live k (mem_cons_of_mem _ found))

end

/-- A rebuild makes a set of the members it is given, whatever links they held. -/
theorem rebuild_isClass (t : T) (representative : K) (rest : List K)
    (distinct : (representative :: rest).Nodup)
    (live : ∀ key ∈ representative :: rest, (links t key).isSome) :
    IsClass (rebuild t (representative :: rest)) representative rest := by
  have outside := (nodup_cons.1 distinct).1
  have lives := live representative mem_cons_self
  have live' : ∀ key ∈ rest, (links (setParent t representative none) key).isSome := by
    simpa using fun key found => live key (mem_cons_of_mem _ found)
  have up : ∀ key, key ∈ representative :: rest →
      parentOf (rebuild t (representative :: rest)) key =
        if key = representative then none else some representative := by
    intro key found
    simp only [rebuild, parentOf_setRoot]
    rw [relink_parent representative rest _ _ key outside live']
    by_cases same : key = representative
    · subst same
      simp [outside, lives]
    · have behind : key ∈ rest := (mem_cons.1 found).resolve_left same
      simp [behind, same]
  refine
    { distinct := distinct
      live := ?_
      linked := ?_
      rooted := by rw [up representative mem_cons_self, if_pos rfl]
      tail := ?_
      size := ?_
      inside := ?_
      climbs := ?_ }
  · intro key found
    simp only [rebuild, isSome_setRoot, relink_live, isSome_setParent]
    exact live key found
  · refine Linked.congr (fun key _ => nextOf_setRoot _ representative key _ _) ?_
    exact relink_linked representative rest _ _ distinct (by simpa using live)
  · simp [rebuild, relink_live, lives]
  · simp [rebuild, relink_live, lives]
  · intro key found parent edge
    rw [up key found] at edge
    split at edge
    · cases edge
    · cases edge
      exact mem_cons_self
  · intro key found
    by_cases same : key = representative
    · rw [same]
      exact climb_root _ _ _ (by rw [up representative mem_cons_self, if_pos rfl])
    · cases rest with
      | nil => exact absurd (by simpa using found) same
      | cons head rest =>
        rw [length_cons, climb_succ _ _ key representative (by rw [up key found, if_neg same])]
        exact climb_root _ _ _ (by rw [up representative mem_cons_self, if_pos rfl])

theorem rebuild_agrees (t : T) (members : List K) (key : K) (outside : key ∉ members) :
    links (rebuild t members) key = links t key := by
  cases members with
  | nil => rfl
  | cons representative rest =>
    obtain ⟨other, behind⟩ := not_or.1 (mt mem_cons.2 outside)
    simp only [rebuild, setRoot, links_modifyLinks, if_neg other]
    rw [relink_agrees representative rest _ representative key other behind]
    simp [setParent, other]

theorem rebuild_tail (t : T) (representative : K) (rest : List K) (key : K)
    (live : (links t representative).isSome) :
    tailOf (rebuild t (representative :: rest)) key =
      if key = representative then (representative :: rest).getLast? else tailOf t key := by
  simp [rebuild, relink_live, relink_tail, live]

end Writes

end DisjointSet
