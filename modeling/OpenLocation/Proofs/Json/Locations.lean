import OpenLocation.Place
import OpenLocation.Proofs.Json.Lawful

/-!
# Locations in JSON

A location of finite coordinates is written and read back as itself, sign of zero and all. A
coordinate that is not finite is written as a literal, which is JSON but no number, so such a
location is not read back at all (`readLocation_json`). That rests on the laws of the codec alone:
numbers are read as the doubles nearest to them, and the two are told apart by their names.
-/

namespace OpenLocation.Json

section

variable [Codec]

/-- A double is written as a number if it is finite, and as the literal for none otherwise. -/
theorem numberSpelling_writeNumber (hwriter : LawfulWriter) (x : Binary64) :
    NumberSpelling (if x.isFinite then some x else none) (Codec.writeNumber x) := by
  cases h : x.isFinite with
  | false =>
    rw [hwriter.null h]
    exact .null
  | true => exact .number h (hwriter.number h)

/--
The JSON of a location of finite coordinates is read back as that location, to the bit. If a
coordinate is not finite, its JSON is no location. So it is with every codec that reads numbers as
the doubles nearest to them.
-/
theorem readLocation_json (hwriter : LawfulWriter) (hreader : ExactReader) (l : Location) :
    readLocation l.json =
      if l.latitude.isFinite ∧ l.longitude.isFinite then .ok l else .error .unexpected := by
  obtain ⟨latitude, hlatitude, hfirst⟩ := hwriter.string "latitude".toList
  obtain ⟨longitude, hlongitude, hsecond⟩ := hwriter.string "longitude".toList
  have hpair := hreader.pair (by decide) hfirst hsecond
    (numberSpelling_writeNumber hwriter l.latitude)
    (numberSpelling_writeNumber hwriter l.longitude) _ (List.Perm.refl _)
  rw [← hlatitude, ← hlongitude] at hpair
  have hjson : l.json = object [
      (Codec.writeString "latitude".toList, Codec.writeNumber l.latitude),
      (Codec.writeString "longitude".toList, Codec.writeNumber l.longitude)] :=
    hwriter.object _
  rw [readLocation, hjson, hpair]
  cases l.latitude.isFinite with
  | false => rfl
  | true =>
    cases l.longitude.isFinite with
    | false => rfl
    | true => rfl

end

/-- A negative zero and the least number above zero, and a latitude that is no number. -/
theorem readLocation_json_extremes :
    (∃ text, Location.json ⟨-0, 5e-324⟩ = text ∧
      text = "\x7b\"latitude\":-0.0,\"longitude\":5e-324\x7d".toList ∧
      readLocation text = .ok ⟨-0, 5e-324⟩) ∧
    ∃ text, Location.json ⟨.nan, -41.25⟩ = text ∧
      text = "\x7b\"latitude\":null,\"longitude\":-41.25\x7d".toList ∧
      readLocation text = .error .unexpected := by
  have hfinite : (-0 : Binary64).isFinite = true ∧ (5e-324 : Binary64).isFinite = true := by
    decide +kernel
  have hread := readLocation_json compact_lawfulWriter compact_exactReader
  refine ⟨⟨_, rfl, by decide +kernel, ?_⟩, _, rfl, by decide +kernel, ?_⟩
  · exact (hread ⟨-0, 5e-324⟩).trans (if_pos hfinite)
  · exact (hread ⟨.nan, -41.25⟩).trans (if_neg fun h => Bool.false_ne_true h.1)

end OpenLocation.Json
