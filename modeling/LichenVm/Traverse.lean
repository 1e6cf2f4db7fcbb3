import Mathlib.Algebra.Order.Ring.Nat
import Mathlib.Data.List.Basic

/-! Traversing a list or an option by a partial function. -/

open List Option

namespace Traverse

variable {α β : Type}

section

variable (f : α → Option β)

include f

variable (items : List α)

theorem mapM_isSome (each : ∀ item ∈ items, (f item).isSome) : (items.mapM f).isSome := by
  induction items with
  | nil => rfl
  | cons item items ih =>
    obtain ⟨image, found⟩ := isSome_iff_exists.1 (each item mem_cons_self)
    obtain ⟨images, rest⟩ := isSome_iff_exists.1
      (ih fun other member => each other (mem_cons_of_mem _ member))
    simp [mapM_cons, found, rest]

variable (images : List β)

theorem getElem?_of_mapM (ran : items.mapM f = some images) (index : Nat) :
    images[index]? = items[index]?.bind f := by
  induction items generalizing images index with
  | nil =>
    obtain rfl : images = [] := by simpa using ran.symm
    simp
  | cons item items ih =>
    rw [mapM_cons] at ran
    obtain ⟨image, found, ran⟩ := bind_eq_some_iff.1 ran
    obtain ⟨rest, ran', same⟩ := bind_eq_some_iff.1 ran
    cases same
    cases index with
    | zero => simp [found]
    | succ index => simpa using ih rest ran' index

theorem isSome_of_mapM (ran : (items.mapM f).isSome) : ∀ item ∈ items, (f item).isSome := by
  induction items with
  | nil => exact fun _ member => by cases member
  | cons first items ih =>
    obtain ⟨images, ran⟩ := isSome_iff_exists.1 ran
    rw [mapM_cons] at ran
    obtain ⟨image, found, ran⟩ := bind_eq_some_iff.1 ran
    obtain ⟨rest, ran', -⟩ := bind_eq_some_iff.1 ran
    intro item member
    rcases mem_cons.1 member with rfl | member
    · rw [found]; rfl
    · exact ih (by rw [ran']; rfl) item member

theorem mapM_isSome_iff : (items.mapM f).isSome ↔ ∀ item ∈ items, (f item).isSome :=
  ⟨isSome_of_mapM f items, mapM_isSome f items⟩

theorem optionMapM_isSome_iff (item : Option α) :
    (item.mapM f).isSome ↔ ∀ a, item = some a → (f a).isSome := by
  cases item with
  | none => exact iff_of_true rfl (by simp)
  | some a =>
    have mapped : (some a).mapM f = (f a).map some := rfl
    simp [mapped]

theorem length_of_mapM (ran : items.mapM f = some images) : images.length = items.length := by
  induction items generalizing images with
  | nil =>
    obtain rfl : images = [] := by simpa using ran.symm
    rfl
  | cons item items ih =>
    rw [mapM_cons] at ran
    obtain ⟨image, -, ran⟩ := bind_eq_some_iff.1 ran
    obtain ⟨rest, ran', same⟩ := bind_eq_some_iff.1 ran
    cases same
    simp [ih rest ran']

theorem exists_of_mem_mapM (ran : items.mapM f = some images) (image : β)
    (member : image ∈ images) : ∃ item ∈ items, f item = some image := by
  obtain ⟨index, found⟩ := mem_iff_getElem?.1 member
  rw [getElem?_of_mapM f items images ran] at found
  obtain ⟨item, at_index, same⟩ := bind_eq_some_iff.1 found
  exact ⟨item, mem_of_getElem? at_index, same⟩

theorem mapM_eq_map (g : α → β) (items : List α) (each : ∀ item ∈ items, f item = some (g item)) :
    items.mapM f = some (items.map g) := by
  induction items with
  | nil => rfl
  | cons item items ih =>
    rw [mapM_cons, each item mem_cons_self,
      ih fun other member => each other (mem_cons_of_mem _ member)]
    rfl

end

theorem mapM_mono {f g : α → Option β} (mono : ∀ item value, f item = some value → g item = some value)
    {items : List α} {values : List β} (found : items.mapM f = some values) :
    items.mapM g = some values := by
  induction items generalizing values with
  | nil => exact found
  | cons item items ih =>
    rw [mapM_cons] at found ⊢
    obtain ⟨value, first, found⟩ := bind_eq_some_iff.1 found
    obtain ⟨rest, later, found⟩ := bind_eq_some_iff.1 found
    rw [mono item value first, ih later]
    exact found

theorem optionMapM_cases (f : α → Option β) {item : Option α} {image : Option β}
    (ran : item.mapM f = some image) :
    (item = none ∧ image = none) ∨ ∃ a b, item = some a ∧ f a = some b ∧ image = some b := by
  cases item with
  | none => exact .inl ⟨rfl, (some.inj ran).symm⟩
  | some a =>
    obtain ⟨b, found, same⟩ := map_eq_some_iff.1 (show (f a).map some = some image from ran)
    exact .inr ⟨a, b, rfl, found, same.symm⟩

theorem optionMapM_eq_map (f : α → Option β) (g : α → β) (item : Option α)
    (each : ∀ a, item = some a → f a = some (g a)) : item.mapM f = some (item.map g) := by
  cases item with
  | none => rfl
  | some a =>
    have mapped : (some a).mapM f = (f a).map some := rfl
    rw [mapped, each a rfl]
    rfl

section Except

variable {ε : Type}

theorem bind_ok {first : Except ε α} {rest : α → Except ε β} {answer : β} :
    (first >>= rest) = .ok answer ↔ ∃ value, first = .ok value ∧ rest value = .ok answer := by
  cases first with
  | error cause =>
    constructor
    · intro ran
      cases ran
    · rintro ⟨value, same, -⟩
      cases same
  | ok value =>
    constructor
    · exact fun ran => ⟨value, rfl, ran⟩
    · rintro ⟨other, same, ran⟩
      cases same
      exact ran

variable {items : List α}

theorem forM_ok {check : α → Except ε Unit}
    (ran : items.forM check = .ok ()) : ∀ item ∈ items, check item = .ok () := by
  induction items with
  | nil => exact fun _ member => absurd member not_mem_nil
  | cons first items ih =>
    unfold List.forM at ran
    obtain ⟨_, passed, rest⟩ := bind_ok.1 ran
    intro item member
    rcases mem_cons.1 member with rfl | member
    · exact passed
    · exact ih rest item member

section

variable {f : α → Except ε β} {images : List β} (ran : items.mapM f = .ok images)

include ran

theorem getElem?_of_mapM_ok : images.length = items.length ∧
    ∀ (index : Nat) (item : α), items[index]? = some item →
      ∃ image, images[index]? = some image ∧ f item = .ok image := by
  induction items generalizing images with
  | nil =>
    cases ran
    exact ⟨rfl, fun index item found => by cases found⟩
  | cons first items ih =>
    rw [mapM_cons] at ran
    obtain ⟨image, here, ran⟩ := bind_ok.1 ran
    obtain ⟨others, rest, same⟩ := bind_ok.1 ran
    cases same
    obtain ⟨count, each⟩ := ih rest
    refine ⟨congrArg Nat.succ count, fun index item found => ?_⟩
    cases index with
    | zero =>
      cases found
      exact ⟨image, rfl, here⟩
    | succ index => exact each index item found

theorem mem_of_mapM_ok :
    (∀ item ∈ items, ∃ image ∈ images, f item = .ok image) ∧
    ∀ image ∈ images, ∃ item ∈ items, f item = .ok image := by
  obtain ⟨count, each⟩ := getElem?_of_mapM_ok ran
  constructor
  · intro item member
    obtain ⟨index, found⟩ := mem_iff_getElem?.1 member
    obtain ⟨image, held, same⟩ := each index item found
    exact ⟨image, mem_of_getElem? held, same⟩
  · intro image member
    obtain ⟨index, found⟩ := mem_iff_getElem?.1 member
    have within : index < items.length := count ▸ (List.getElem?_eq_some_iff.1 found).1
    obtain ⟨other, held, same⟩ := each index _ (getElem?_eq_getElem within)
    rw [found] at held
    cases held
    exact ⟨_, getElem_mem within, same⟩

end

variable {step : β → α → Except ε β}

theorem foldlM_ok {first last : β} (inv : List α → β → Prop) (start : inv [] first)
    (next : ∀ done item rest before after, items = done ++ item :: rest → inv done before →
      step before item = .ok after → inv (done ++ [item]) after)
    (ran : items.foldlM step first = .ok last) : inv items last := by
  have along : ∀ rest done before, items = done ++ rest → inv done before →
      rest.foldlM step before = .ok last → inv items last := by
    intro rest
    induction rest with
    | nil =>
      intro done before whole held ran
      cases ran
      rw [whole, append_nil]
      exact held
    | cons item rest ih =>
      intro done before whole held ran
      obtain ⟨after, stepped, ran⟩ := bind_ok.1 ran
      apply ih (done ++ [item]) after _ (next done item rest before after whole held stepped) ran
      rw [whole, append_assoc]
      rfl
  exact along items [] first rfl start ran

section

variable {grows : β → β → Prop} (refl : ∀ b, grows b b)
  (trans : ∀ a b c, grows a b → grows b c → grows a c)

include refl trans

theorem foldlM_ok_grows
    (each : ∀ item ∈ items, ∀ before after, step before item = .ok after → grows before after)
    {first last : β} (ran : items.foldlM step first = .ok last) : grows first last := by
  apply foldlM_ok (fun _ => grows first) (refl first) _ ran
  intro done item rest before after whole held stepped
  apply trans _ _ _ held (each item _ before after stepped)
  rw [whole]
  exact mem_append_right _ mem_cons_self

theorem foldlM_ok_still (antisymm : ∀ a b, grows a b → grows b a → a = b)
    (each : ∀ item ∈ items, ∀ before after, step before item = .ok after → grows before after)
    {start : β} (ran : items.foldlM step start = .ok start) :
    ∀ item ∈ items, step start item = .ok start := by
  induction items with
  | nil => exact fun _ member => absurd member not_mem_nil
  | cons first items ih =>
    obtain ⟨after, stepped, ran⟩ := bind_ok.1 ran
    have others := fun item member => each item (mem_cons_of_mem first member)
    have up := each first mem_cons_self start after stepped
    have down := foldlM_ok_grows refl trans others ran
    obtain rfl := antisymm _ _ up down
    intro item member
    rcases mem_cons.1 member with rfl | member
    · exact stepped
    · exact ih others ran item member

end

end Except

end Traverse
