import Mathlib.Tactic.SplitIfs
import OpenLocation.CommandLine.Arguments

/-!
# Arguments and what they stand for

Behind the name of a command each argument is a switch, a code or part of an option, whatever
the command is. What is gathered are the codes and the values of options, one after the other
(`gather_eq`), up to the end or to the first request for help. So one code can be exchanged for
another and leaves the options as they are (`gather_exchange`).
-/

namespace OpenLocation

namespace Arguments

/-! ## Single arguments -/

theorem Argument.ofText_of_head_ne {text : List Char} (h : text.head? ≠ some '-') :
    Argument.ofText text = .plain text := by
  unfold Argument.ofText
  split
  · exact absurd rfl h
  · exact absurd rfl h
  · rfl

theorem Verb.plain_of_ofName? {name : List Char} {verb : Verb}
    (h : Verb.ofName? name = some verb) : Argument.ofText name = .plain name := by
  refine Argument.ofText_of_head_ne ?_
  unfold Verb.ofName? at h
  split_ifs at h with hencode hdecode hshorten hrecover hvalidate
  all_goals subst name; decide

/-- An option with its value in one argument, whatever the value is. -/
theorem long_eq {name : List Char} {s : Setting} (hname : '=' ∉ name)
    (hs : Setting.ofName? name = some s) (value : List Char) :
    long (name ++ '=' :: value) = .setting s (some value) := by
  have hkept : ∀ c ∈ name, decide (c ≠ '=') = true := by
    intro c hc
    rw [decide_eq_true_iff]
    rintro rfl
    exact hname hc
  have htake : (name ++ '=' :: value).takeWhile (· ≠ '=') = name := by
    rw [List.takeWhile_append_of_pos hkept]
    simp
  have hdrop : (name ++ '=' :: value).dropWhile (· ≠ '=') = '=' :: value := by
    rw [List.dropWhile_append_of_pos hkept]
    simp
  unfold long
  rw [htake, hdrop]
  dsimp only
  rw [hs]

/-! ## Codes and values -/

/-- What arguments stand for. -/
inductive Item where
  | code (text : List Char)
  | value (s : Setting) (text : List Char)
  | help
  deriving DecidableEq, Repr

/-- The codes and the values of options in the order of the arguments, up to a request for help. -/
def itemsOf : List (List Char) → Option (List Item)
  | [] => some []
  | argument :: rest =>
    match Argument.ofText argument with
    | .verbose => itemsOf rest
    | .help => some [.help]
    | .plain text => (itemsOf rest).map (.code text :: ·)
    | .codesFollow => some (rest.map .code)
    | .setting s (some value) => (itemsOf rest).map (.value s value :: ·)
    | .setting s none =>
      match rest with
      | [] => none
      | value :: rest =>
        if isValue s value then (itemsOf rest).map (.value s value :: ·) else none
    | .version | .wrong => none

/--
Help is asked for, or a text is among the values of options, or it is a code and any other code in
its place is read as that code.
-/
def Exchangeable (read : List Char → Option (List Item)) (x : List Char) (items : List Item) :
    Prop :=
  .help ∈ items ∨ (∃ s, Item.value s x ∈ items) ∨
    ∃ front back, items = front ++ .code x :: back ∧
      ∀ y, Argument.ofText y = .plain y → read y = some (front ++ .code y :: back)

theorem Exchangeable.cons {read : List Char → Option (List Item)} {x : List Char}
    {items : List Item} (h : Exchangeable read x items) (item : Item) :
    Exchangeable (fun y => (read y).map (item :: ·)) x (item :: items) := by
  rcases h with hhelp | ⟨s, hs⟩ | ⟨front, back, rfl, hread⟩
  · exact Or.inl (List.mem_cons_of_mem _ hhelp)
  · exact Or.inr (Or.inl ⟨s, List.mem_cons_of_mem _ hs⟩)
  · exact Or.inr (Or.inr ⟨item :: front, back, rfl,
      fun y hy => congrArg (Option.map (item :: ·)) (hread y hy)⟩)

theorem itemsOf_exchange {before after : List (List Char)} {x : List Char} {items : List Item}
    (hx : Argument.ofText x = .plain x) (h : itemsOf (before ++ x :: after) = some items) :
    Exchangeable (fun y => itemsOf (before ++ y :: after)) x items := by
  fun_induction itemsOf before generalizing items with
  | case1 =>
    rw [List.nil_append, itemsOf, hx, Option.map_eq_some_iff] at h
    obtain ⟨back, hback, rfl⟩ := h
    refine Or.inr (Or.inr ⟨[], back, rfl, fun y hy => ?_⟩)
    show itemsOf (y :: after) = _
    rw [itemsOf, hy, hback]
    rfl
  | case2 argument rest harg ih =>
    simp only [List.cons_append, itemsOf, harg] at h ⊢
    exact ih h
  | case3 argument rest harg =>
    simp only [List.cons_append, itemsOf, harg] at h
    obtain rfl := Option.some.inj h
    exact Or.inl List.mem_cons_self
  | case5 argument rest harg =>
    simp only [List.cons_append, itemsOf, harg] at h ⊢
    obtain rfl := Option.some.inj h
    exact Or.inr (Or.inr ⟨rest.map .code, after.map .code, by simp, fun y _ => by simp⟩)
  | case4 argument rest text harg ih | case6 argument rest s value harg ih =>
    simp only [List.cons_append, itemsOf, harg, Option.map_eq_some_iff] at h ⊢
    obtain ⟨items, hitems, rfl⟩ := h
    exact (ih hitems).cons _
  | case7 argument s harg =>
    -- The option is the last argument before the text, which is its value.
    simp only [List.cons_append, List.nil_append, itemsOf, harg] at h
    split at h
    · obtain ⟨items, -, rfl⟩ := Option.map_eq_some_iff.1 h
      exact Or.inr (Or.inl ⟨s, List.mem_cons_self⟩)
    · cases h
  | case8 argument s harg value rest hvalue ih =>
    simp only [List.cons_append, itemsOf, harg, hvalue, if_true, Option.map_eq_some_iff] at h ⊢
    obtain ⟨items, hitems, rfl⟩ := h
    exact (ih hitems).cons _
  | case9 argument s harg value rest hvalue =>
    simp only [List.cons_append, itemsOf, harg, if_neg hvalue, reduceCtorEq] at h
  | case10 argument rest harg | case11 argument rest harg =>
    simp only [List.cons_append, itemsOf, harg, reduceCtorEq] at h

/-! ## What is gathered -/

namespace Gathered

variable {g g' : Gathered} {verb : Verb} {s : Setting} {text x : List Char} {items : List Item}

def add (verb : Verb) (g : Gathered) : Item → Option Gathered
  | .code text => g.addCode verb text
  | .value s text => g.addValue verb s text
  | .help => some { g with help := true }

theorem addCode_eq_some_iff : g.addCode verb text = some g' ↔
    (verb.takesCode = true ∧ g.code = none) ∧ { g with code := some text } = g' := by
  rw [addCode, Option.ite_none_right_eq_some, Option.some.injEq]

theorem addValue_eq_some_iff : g.addValue verb s text = some g' ↔
    (verb.allows s = true ∧ g.value? s = none) ∧
      { g with values := (s, text) :: g.values } = g' := by
  rw [addValue, Option.ite_none_right_eq_some, Option.some.injEq]

theorem foldlM_cons_eq_some_iff {item : Item} : (item :: items).foldlM (add verb) g = some g' ↔
    ∃ g₁, g.add verb item = some g₁ ∧ items.foldlM (add verb) g₁ = some g' := by
  rw [List.foldlM_cons, Option.bind_eq_bind, Option.bind_eq_some_iff]

/-- A value that was found stays. -/
theorem value?_add {t : Setting} {item : Item} (h : g.add verb item = some g')
    (hvalue : g.value? t = some x) : g'.value? t = some x := by
  cases item with
  | code text =>
    obtain ⟨-, rfl⟩ := addCode_eq_some_iff.1 h
    exact hvalue
  | value s text =>
    obtain ⟨⟨-, hnone⟩, rfl⟩ := addValue_eq_some_iff.1 h
    have hne : s ≠ t := by
      rintro rfl
      rw [hvalue] at hnone
      cases hnone
    rw [value?, List.find?_cons_of_neg (by simpa using hne)]
    exact hvalue
  | help =>
    obtain rfl := Option.some.inj h
    exact hvalue

theorem value?_foldlM {t : Setting} (h : items.foldlM (add verb) g = some g')
    (hvalue : g.value? t = some x) : g'.value? t = some x := by
  induction items generalizing g with
  | nil =>
    obtain rfl := Option.some.inj h
    exact hvalue
  | cons item items ih =>
    obtain ⟨g₁, hitem, hitems⟩ := foldlM_cons_eq_some_iff.1 h
    exact ih hitems (value?_add hitem hvalue)

/-- The values are those of options that the command allows, and none is lost. -/
theorem value?_of_mem (h : items.foldlM (add verb) g = some g') (hmem : Item.value s x ∈ items) :
    verb.allows s = true ∧ g'.value? s = some x := by
  induction items generalizing g with
  | nil => cases hmem
  | cons item items ih =>
    obtain ⟨g₁, hitem, hitems⟩ := foldlM_cons_eq_some_iff.1 h
    rcases List.mem_cons.1 hmem with rfl | hmem
    · obtain ⟨⟨hallows, -⟩, rfl⟩ := addValue_eq_some_iff.1 hitem
      refine ⟨hallows, value?_foldlM hitems ?_⟩
      rw [value?, List.find?_cons_of_pos (by simp)]
      rfl
    · exact ih hitems hmem

/-- Who has asked for help goes on asking for it. -/
theorem help_add {item : Item} (h : g.add verb item = some g') (hhelp : g.help = true) :
    g'.help = true := by
  cases item with
  | code text =>
    obtain ⟨-, rfl⟩ := addCode_eq_some_iff.1 h
    exact hhelp
  | value s text =>
    obtain ⟨-, rfl⟩ := addValue_eq_some_iff.1 h
    exact hhelp
  | help =>
    obtain rfl := Option.some.inj h
    rfl

theorem help_foldlM (h : items.foldlM (add verb) g = some g')
    (hhelp : g.help = true ∨ .help ∈ items) : g'.help = true := by
  induction items generalizing g with
  | nil =>
    obtain rfl := Option.some.inj h
    exact hhelp.resolve_right List.not_mem_nil
  | cons item items ih =>
    obtain ⟨g₁, hitem, hitems⟩ := foldlM_cons_eq_some_iff.1 h
    refine ih hitems ?_
    rcases hhelp with hhelp | hmem
    · exact Or.inl (help_add hitem hhelp)
    rcases List.mem_cons.1 hmem with rfl | hmem
    · obtain rfl := Option.some.inj hitem
      exact Or.inl rfl
    · exact Or.inr hmem

/-- With a code no other one is taken, so what is added does not depend on it. -/
theorem foldlM_of_code (y : List Char) (hcode : g.code = some x)
    (h : items.foldlM (add verb) g = some g') :
    g'.code = some x ∧
      items.foldlM (add verb) { g with code := some y } = some { g' with code := some y } := by
  induction items generalizing g with
  | nil =>
    obtain rfl := Option.some.inj h
    exact ⟨hcode, rfl⟩
  | cons item items ih =>
    obtain ⟨g₁, hitem, hitems⟩ := foldlM_cons_eq_some_iff.1 h
    cases item with
    | code text =>
      rw [addCode_eq_some_iff.1 hitem |>.1.2] at hcode
      cases hcode
    | value s text =>
      obtain ⟨hallowed, rfl⟩ := addValue_eq_some_iff.1 hitem
      obtain ⟨hkept, hrest⟩ := ih (by exact hcode) hitems
      exact ⟨hkept,
        foldlM_cons_eq_some_iff.2 ⟨_, addValue_eq_some_iff.2 ⟨hallowed, rfl⟩, hrest⟩⟩
    | help =>
      obtain rfl := Option.some.inj hitem
      obtain ⟨hkept, hrest⟩ := ih (by exact hcode) hitems
      exact ⟨hkept, foldlM_cons_eq_some_iff.2 ⟨_, rfl, hrest⟩⟩

/-- One code in the place of another is the code that is gathered. -/
theorem foldlM_exchange {front back : List Item} (y : List Char)
    (h : (front ++ .code x :: back).foldlM (add verb) g = some g') :
    g'.code = some x ∧
      (front ++ .code y :: back).foldlM (add verb) g = some { g' with code := some y } := by
  rw [List.foldlM_append, Option.bind_eq_bind, Option.bind_eq_some_iff] at h
  obtain ⟨g₁, hfront, hrest⟩ := h
  obtain ⟨g₂, hcode, hback⟩ := foldlM_cons_eq_some_iff.1 hrest
  obtain ⟨htakes, rfl⟩ := addCode_eq_some_iff.1 hcode
  obtain ⟨hkept, hback⟩ := foldlM_of_code y rfl hback
  refine ⟨hkept, ?_⟩
  rw [List.foldlM_append, hfront, Option.bind_eq_bind, Option.bind_some]
  exact foldlM_cons_eq_some_iff.2 ⟨_, addCode_eq_some_iff.2 ⟨htakes, rfl⟩, hback⟩

/-- A location is two values that are texts of numbers. -/
theorem location?_eq_some_iff {x y : Binary64} : g.location? = some ⟨x, y⟩ ↔
    ∃ latitude longitude, g.value? .latitude = some latitude ∧
      g.value? .longitude = some longitude ∧ Decimal.double? latitude = some x ∧
      Decimal.double? longitude = some y := by
  simp only [location?, Option.bind_eq_bind, Option.bind_eq_some_iff, Option.pure_def,
    Option.some.injEq, Location.mk.injEq]
  constructor
  · rintro ⟨latitude, hlatitude, x, hx, longitude, hlongitude, y, hy, rfl, rfl⟩
    exact ⟨latitude, longitude, hlatitude, hlongitude, hx, hy⟩
  · rintro ⟨latitude, longitude, hlatitude, hlongitude, hx, hy⟩
    exact ⟨latitude, hlatitude, x, hx, longitude, hlongitude, y, hy, rfl, rfl⟩

end Gathered

theorem bind_foldlM_cons (verb : Verb) (g : Gathered) (item : Item) (items : Option (List Item)) :
    ((g.add verb item).bind fun g' => items.bind (·.foldlM (Gathered.add verb) g')) =
      (items.map (item :: ·)).bind (·.foldlM (Gathered.add verb) g) := by
  cases items with
  | none => cases g.add verb item <;> rfl
  | some items => rfl

/-- What is gathered is what the arguments stand for, added in their order. -/
theorem gather_eq (verb : Verb) (g : Gathered) (arguments : List (List Char)) :
    gather verb g arguments = (itemsOf arguments).bind (·.foldlM (Gathered.add verb) g) := by
  fun_induction gather verb g arguments with
  | case1 g => rfl
  | case2 g argument rest harg ih => rw [ih, itemsOf, harg]
  | case3 g argument rest harg =>
    rw [itemsOf, harg]
    rfl
  | case4 g argument rest text harg ih =>
    simp only [ih, itemsOf, harg]
    exact bind_foldlM_cons verb g (.code text) (itemsOf rest)
  | case5 g argument rest harg =>
    rw [itemsOf, harg]
    dsimp only
    rw [Option.bind_some, List.foldlM_map]
    rfl
  | case6 g argument rest s value harg ih =>
    simp only [ih, itemsOf, harg]
    exact bind_foldlM_cons verb g (.value s value) (itemsOf rest)
  | case7 g argument s harg =>
    rw [itemsOf, harg]
    rfl
  | case8 g argument s harg value rest hvalue ih =>
    simp only [ih, itemsOf, harg, hvalue, if_true]
    exact bind_foldlM_cons verb g (.value s value) (itemsOf rest)
  | case9 g argument s harg value rest hvalue =>
    rw [itemsOf, harg]
    dsimp only
    rw [if_neg hvalue]
    rfl
  | case10 g argument rest harg | case11 g argument rest harg =>
    rw [itemsOf, harg]
    rfl

/-- Recovery takes the arguments that shortening takes. -/
theorem gather_recover (g : Gathered) (arguments : List (List Char)) :
    gather .recover g arguments = gather .shorten g arguments := by
  have hadd : Gathered.add .recover = Gathered.add .shorten := by
    funext g item
    cases item with
    | code text => rfl
    | value s text => cases s <;> rfl
    | help => rfl
  rw [gather_eq, gather_eq, hadd]

/--
A code behind the name of a command can be exchanged for another one, unless it is taken for the
value of an option or help is asked for before it.
-/
theorem gather_exchange {verb : Verb} {g g' : Gathered} {before after : List (List Char)}
    {x y : List Char} (hx : Argument.ofText x = .plain x) (hy : Argument.ofText y = .plain y)
    (h : gather verb g (before ++ x :: after) = some g') :
    g'.help = true ∨ (∃ s, verb.allows s = true ∧ g'.value? s = some x) ∨
      g'.code = some x ∧
        gather verb g (before ++ y :: after) = some { g' with code := some y } := by
  rw [gather_eq, Option.bind_eq_some_iff] at h
  obtain ⟨items, hitems, hgather⟩ := h
  rcases itemsOf_exchange hx hitems with hhelp | ⟨s, hs⟩ | ⟨front, back, rfl, hread⟩
  · exact Or.inl (Gathered.help_foldlM hgather (Or.inr hhelp))
  · exact Or.inr (Or.inl ⟨s, Gathered.value?_of_mem hgather hs⟩)
  · obtain ⟨hcode, hy'⟩ := Gathered.foldlM_exchange y hgather
    refine Or.inr (Or.inr ⟨hcode, ?_⟩)
    rw [gather_eq, show itemsOf (before ++ y :: after) = _ from hread y hy]
    exact hy'

/-! ## Requests -/

theorem Gathered.request?_eq_some_iff {g : Gathered} {verb : Verb} {c : Command} :
    g.request? verb = some (.command c) ↔ g.help = false ∧ g.command? verb = some c := by
  unfold request?
  cases g.help with
  | false => simp
  | true => simp

/-- What the name of a command asks for with the arguments behind it. -/
theorem request?_cons {name : List Char} {verb : Verb} {arguments : List (List Char)}
    {c : Command} (h : Verb.ofName? name = some verb) :
    request? (name :: arguments) = some (.command c) ↔
      ∃ g, gather verb .empty arguments = some g ∧ g.help = false ∧ g.command? verb = some c := by
  have hname : name ≠ "help".toList := by
    rintro rfl
    rw [show Verb.ofName? "help".toList = none by decide] at h
    cases h
  simp only [request?, Verb.plain_of_ofName? h, if_neg hname, h, Option.bind_eq_bind,
    Option.bind_some, Option.bind_eq_some_iff, Gathered.request?_eq_some_iff]

/-- Switches before the name of a command change nothing. -/
theorem request?_append {switches : List (List Char)}
    (h : ∀ s ∈ switches, Argument.ofText s = .verbose) (arguments : List (List Char)) :
    request? (switches ++ arguments) = request? arguments := by
  induction switches with
  | nil => rfl
  | cons s switches ih =>
    obtain ⟨hs, hswitches⟩ := List.forall_mem_cons.1 h
    rw [List.cons_append, request?, hs]
    exact ih hswitches

end Arguments

end OpenLocation
