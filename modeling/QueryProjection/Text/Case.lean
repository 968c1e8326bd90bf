/-!
# Names that ignore case

Members of a record and keys of a response are matched without regard to the case of the letters
`A` to `Z`.  All other characters, accented letters included, match only themselves.

* `Text.foldCase` is the key two names are compared by;
* `Text.sameIgnoringCase` compares two names, and `Text.sameIgnoringCase_iff` says that it compares
  the keys.
-/

namespace QueryProjection
namespace Text

/-- The name with the letters `A` to `Z` in lower case and everything else as it is. -/
def foldCase (name : String) : String :=
  String.ofList (name.toList.map Char.toLower)

/-- Whether two names differ at most in the case of the letters `A` to `Z`. -/
def sameIgnoringCase (a b : String) : Bool :=
  foldCase a == foldCase b

theorem sameIgnoringCase_iff (a b : String) :
    sameIgnoringCase a b = true ↔ foldCase a = foldCase b := by
  simp [sameIgnoringCase]

@[simp] theorem sameIgnoringCase_refl (a : String) : sameIgnoringCase a a = true := by
  simp [sameIgnoringCase]

theorem sameIgnoringCase_comm (a b : String) : sameIgnoringCase a b = sameIgnoringCase b a := by
  simp [sameIgnoringCase, Bool.beq_comm]

end Text
end QueryProjection
