import OpenLocation.Proofs.CommandLine.Arguments

/-!
# What is known of a reader of arguments

`Arguments.Lawful` says what a reader of arguments is documented to do with the options and codes
that the commands declare. Numbers are given as texts that the reader of numbers takes, an argument
that begins like no option is a code, and shortening and recovery declare the same. The project's
own reader obeys the laws (`plain_lawful`).
-/

namespace OpenLocation.Arguments

/-- A switch that asks for more log lines, by its name or by letters. -/
def IsVerbose (argument : List Char) : Prop :=
  argument = "--verbose".toList ∨ ∃ more, argument = '-' :: 'v' :: List.replicate more 'v'

structure Lawful [Reader] : Prop where
  validate {code : List Char} (h : code.head? ≠ some '-') :
    Reader.read ["validate".toList, code] = .ok (.command (.validate code))
  /-- Encoding takes all texts of numbers. -/
  encode {latitude longitude length : List Char} {x y : Binary64} {n : Nat}
    (hx : Decimal.double? latitude = some x) (hy : Decimal.double? longitude = some y)
    (hn : Decimal.count? length = some n) :
    Reader.read ["encode".toList, "--lat=".toList ++ latitude, "--lng=".toList ++ longitude,
      "--length=".toList ++ length] = .ok (.command (.encode ⟨x, y⟩ n))
  /-- Recovery takes what shortening takes. -/
  recover {switches arguments : List (List Char)} {code : List Char} {r : Location}
    (hswitches : ∀ w ∈ switches, IsVerbose w)
    (h : Reader.read (switches ++ "shorten".toList :: arguments) =
      .ok (.command (.shorten code r))) :
    Reader.read (switches ++ "recover".toList :: arguments) = .ok (.command (.recover code r))
  /-- A code that is no number, and so not the value of an option, can be exchanged for another. -/
  exchange {switches before after : List (List Char)} {x y : List Char} {r : Location}
    (hswitches : ∀ w ∈ switches, IsVerbose w) (hx : x.head? ≠ some '-')
    (hnumber : Decimal.double? x = none) (hy : y.head? ≠ some '-')
    (h : Reader.read (switches ++ "recover".toList :: (before ++ x :: after)) =
      .ok (.command (.recover x r))) :
    Reader.read (switches ++ "recover".toList :: (before ++ y :: after)) =
      .ok (.command (.recover y r))

/-! ## The project's own reader -/

theorem read_eq_ok_iff {arguments : List (List Char)} {request : Request} :
    Reader.read arguments = .ok request ↔ request? arguments = some request := by
  simp only [Reader.read]
  cases request? arguments <;> simp

theorem IsVerbose.ofText {argument : List Char} (h : IsVerbose argument) :
    Argument.ofText argument = .verbose := by
  rcases h with rfl | ⟨more, rfl⟩
  · decide
  · have hcluster : cluster (List.replicate more 'v') = .verbose := by
      induction more with
      | zero => rfl
      | succ more ih => exact ih
    exact hcluster

theorem request?_encode {latitude longitude length : List Char} {x y : Binary64} {n : Nat}
    (hx : Decimal.double? latitude = some x) (hy : Decimal.double? longitude = some y)
    (hn : Decimal.count? length = some n) :
    request? ["encode".toList, "--lat=".toList ++ latitude, "--lng=".toList ++ longitude,
      "--length=".toList ++ length] = some (.command (.encode ⟨x, y⟩ n)) := by
  have hlat : Argument.ofText ("--lat=".toList ++ latitude) =
      .setting .latitude (some latitude) :=
    @long_eq "lat".toList .latitude (by decide) (by decide) latitude
  have hlng : Argument.ofText ("--lng=".toList ++ longitude) =
      .setting .longitude (some longitude) :=
    @long_eq "lng".toList .longitude (by decide) (by decide) longitude
  have hlength : Argument.ofText ("--length=".toList ++ length) =
      .setting .length (some length) :=
    @long_eq "length".toList .length (by decide) (by decide) length
  rw [request?_cons (by decide : _ = some Verb.encode)]
  refine ⟨⟨none, [(.length, length), (.longitude, longitude), (.latitude, latitude)], false⟩, ?_,
    rfl, ?_⟩
  · simp only [gather, hlat, hlng, hlength]
    rfl
  · have hlocation : Gathered.location?
        ⟨none, [(.length, length), (.longitude, longitude), (.latitude, latitude)], false⟩ =
        some ⟨x, y⟩ :=
      Gathered.location?_eq_some_iff.2 ⟨latitude, longitude, rfl, rfl, hx, hy⟩
    have hcount : Gathered.length?
        ⟨none, [(.length, length), (.longitude, longitude), (.latitude, latitude)], false⟩ =
        some n := hn
    rw [Gathered.command?, hlocation, hcount]
    rfl

theorem Gathered.command?_shorten_iff {g : Gathered} {code : List Char} {r : Location} :
    g.command? .shorten = some (.shorten code r) ↔ g.code = some code ∧ g.location? = some r := by
  unfold command?
  cases g.code <;> cases g.location? <;> simp

theorem Gathered.command?_recover_iff {g : Gathered} {code : List Char} {r : Location} :
    g.command? .recover = some (.recover code r) ↔ g.code = some code ∧ g.location? = some r := by
  unfold command?
  cases g.code <;> cases g.location? <;> simp

theorem request?_recover_iff {switches arguments : List (List Char)} {code : List Char}
    {r : Location} (hswitches : ∀ w ∈ switches, IsVerbose w) :
    request? (switches ++ "recover".toList :: arguments) = some (.command (.recover code r)) ↔
      ∃ g, gather .recover .empty arguments = some g ∧ g.help = false ∧ g.code = some code ∧
        g.location? = some r := by
  rw [request?_append fun w hw => (hswitches w hw).ofText,
    request?_cons (by decide : _ = some Verb.recover)]
  simp only [Gathered.command?_recover_iff]

theorem request?_recover {switches arguments : List (List Char)} {code : List Char} {r : Location}
    (hswitches : ∀ w ∈ switches, IsVerbose w)
    (h : request? (switches ++ "shorten".toList :: arguments) =
      some (.command (.shorten code r))) :
    request? (switches ++ "recover".toList :: arguments) = some (.command (.recover code r)) := by
  rw [request?_append fun w hw => (hswitches w hw).ofText,
    request?_cons (by decide : _ = some Verb.shorten)] at h
  obtain ⟨g, hgather, hhelp, hcommand⟩ := h
  exact (request?_recover_iff hswitches).2
    ⟨g, (gather_recover _ _).trans hgather, hhelp, Gathered.command?_shorten_iff.1 hcommand⟩

theorem request?_exchange {switches before after : List (List Char)} {x y : List Char}
    {r : Location} (hswitches : ∀ w ∈ switches, IsVerbose w) (hx : x.head? ≠ some '-')
    (hnumber : Decimal.double? x = none) (hy : y.head? ≠ some '-')
    (h : request? (switches ++ "recover".toList :: (before ++ x :: after)) =
      some (.command (.recover x r))) :
    request? (switches ++ "recover".toList :: (before ++ y :: after)) =
      some (.command (.recover y r)) := by
  obtain ⟨g, hgather, hhelp, hcode, hlocation⟩ := (request?_recover_iff hswitches).1 h
  obtain ⟨latitude, longitude, hlatitude, hlongitude, hlat, hlng⟩ :=
    Gathered.location?_eq_some_iff.1 hlocation
  rcases gather_exchange (Argument.ofText_of_head_ne hx) (Argument.ofText_of_head_ne hy) hgather
    with hasked | ⟨s, hallows, hvalue⟩ | ⟨-, hexchanged⟩
  · rw [hhelp] at hasked
    cases hasked
  · -- Recovery takes no other options than those of a location, and the code is no number.
    cases s with
    | latitude =>
      rw [hlatitude] at hvalue
      rw [Option.some.inj hvalue, hnumber] at hlat
      cases hlat
    | longitude =>
      rw [hlongitude] at hvalue
      rw [Option.some.inj hvalue, hnumber] at hlng
      cases hlng
    | length => cases hallows
    | format => cases hallows
  · exact (request?_recover_iff hswitches).2
      ⟨{ g with code := some y }, hexchanged, hhelp, rfl, hlocation⟩

theorem request?_validate {code : List Char} (h : code.head? ≠ some '-') :
    request? ["validate".toList, code] = some (.command (.validate code)) := by
  rw [request?_cons (by decide : _ = some Verb.validate)]
  refine ⟨⟨some code, [], false⟩, ?_, rfl, rfl⟩
  rw [gather, Argument.ofText_of_head_ne h]
  rfl

theorem plain_lawful : Lawful where
  validate h := read_eq_ok_iff.2 (request?_validate h)
  encode hx hy hn := read_eq_ok_iff.2 (request?_encode hx hy hn)
  recover hswitches h := read_eq_ok_iff.2 (request?_recover hswitches (read_eq_ok_iff.1 h))
  exchange hswitches hx hnumber hy h :=
    read_eq_ok_iff.2 (request?_exchange hswitches hx hnumber hy (read_eq_ok_iff.1 h))

end OpenLocation.Arguments
