/-
# Excerpts: where a text is cut

A text that is too long for a message is cut after the last character that ends within the limit.
`takeBytes` goes through the characters from the front.  The place can be found from the other side
as well, and then the characters before it need not be looked at: start at the limit, go back a byte
at a time until no character is cut in two, and take the bytes before that.  Here each step may
fail, since there is nothing before the first byte, and bytes that end inside a character are no
text.

* `boundaryUpTo?`, `bytesBefore?`, `cut?`: the cut by bytes.
* `LongestFit`: the longest prefix of whole characters that takes up at most so many bytes.
* `cut?_eq`: the cut by bytes does not fail, and gives what `takeBytes` gives.
* `Json.excerpt_cut`: what this comes to for the excerpts of values.
-/
import Mathlib
import Avro.Json.Excerpt

namespace Avro

/-! ## 1. Cutting by bytes -/

/-- The closest position at or before this one at which no character is cut in two.  The search goes
back byte by byte, and fails if there is none down to the first byte. -/
def boundaryUpTo? (text : String) : Nat → Option Nat
  | 0 => if String.Pos.Raw.isValid text ⟨0⟩ then some 0 else none
  | i + 1 => if String.Pos.Raw.isValid text ⟨i + 1⟩ then some (i + 1) else boundaryUpTo? text i

/-- The bytes before a position, as a text.  If they end inside a character they are none. -/
def bytesBefore? (text : String) (i : Nat) : Option String :=
  String.fromUTF8? (text.toUTF8.extract 0 i)

/-- The text before the closest position at or before the limit. -/
def cut? (limit : Nat) (text : String) : Option String := do
  bytesBefore? text (← boundaryUpTo? text limit)

/-- The excerpt of a value, cut by bytes. -/
def Json.cutExcerpt? (v : Json) : Option String :=
  if v.compact.utf8ByteSize ≤ excerptLimit then some v.compact
  else (cut? excerptLimit v.compact).map (· ++ "...")

/-! ## 2. The longest prefix that fits -/

/-- The longest prefix of whole characters that takes up at most so many bytes. -/
structure LongestFit (limit : Nat) (text kept : String) : Prop where
  exists_rest : ∃ rest, text = kept ++ rest
  fits : kept.utf8ByteSize ≤ limit
  longest : ∀ other rest, text = other ++ rest → other.utf8ByteSize ≤ limit →
    other.utf8ByteSize ≤ kept.utf8ByteSize

theorem utf8ByteSize_ofList_cons (c : Char) (cs : List Char) :
    (String.ofList (c :: cs)).utf8ByteSize = c.utf8Size + (String.ofList cs).utf8ByteSize := by
  rw [← List.singleton_append, String.ofList_append, String.utf8ByteSize_append,
    ← String.singleton_eq_ofList, String.utf8ByteSize_singleton]

theorem exists_eq_takeBytes_append (limit : Nat) (cs : List Char) :
    ∃ rest, cs = takeBytes limit cs ++ rest := by
  induction cs generalizing limit with
  | nil => exact ⟨[], rfl⟩
  | cons c cs ih =>
    rw [takeBytes]
    split
    · obtain ⟨rest, hrest⟩ := ih (limit - c.utf8Size)
      exact ⟨rest, by rw [List.cons_append, ← hrest]⟩
    · exact ⟨c :: cs, rfl⟩

theorem utf8ByteSize_takeBytes_le (limit : Nat) (cs : List Char) :
    (String.ofList (takeBytes limit cs)).utf8ByteSize ≤ limit := by
  induction cs generalizing limit with
  | nil => exact Nat.zero_le limit
  | cons c cs ih =>
    rw [takeBytes]
    split
    · next hfits =>
      have hrest := ih (limit - c.utf8Size)
      rw [utf8ByteSize_ofList_cons]
      omega
    · exact Nat.zero_le limit

/-- A prefix that fits is no longer than the one that is taken. -/
theorem utf8ByteSize_le_takeBytes {limit : Nat} {other : List Char} (rest : List Char)
    (h : (String.ofList other).utf8ByteSize ≤ limit) :
    (String.ofList other).utf8ByteSize ≤
      (String.ofList (takeBytes limit (other ++ rest))).utf8ByteSize := by
  induction other generalizing limit with
  | nil => exact Nat.zero_le _
  | cons c other ih =>
    rw [utf8ByteSize_ofList_cons] at h ⊢
    have hfits : c.utf8Size ≤ limit := by omega
    rw [List.cons_append, takeBytes, if_pos hfits, utf8ByteSize_ofList_cons]
    exact Nat.add_le_add_left (ih (by omega)) _

/-- What is taken from the front is the longest prefix that fits. -/
theorem longestFit_takeBytes (limit : Nat) (text : String) :
    LongestFit limit text (.ofList (takeBytes limit text.toList)) where
  exists_rest := by
    obtain ⟨rest, hrest⟩ := exists_eq_takeBytes_append limit text.toList
    refine ⟨.ofList rest, ?_⟩
    rw [← String.ofList_append, ← hrest, String.ofList_toList]
  fits := utf8ByteSize_takeBytes_le limit text.toList
  longest := by
    rintro other rest rfl hfits
    rw [← other.ofList_toList] at hfits
    have hle := utf8ByteSize_le_takeBytes rest.toList hfits
    rwa [String.ofList_toList, ← String.toList_append] at hle

namespace LongestFit

variable {limit : Nat} {text kept : String}

/-- No character takes up more than four bytes, so at most three are left over. -/
theorem limit_le (h : LongestFit limit text kept) (hlong : limit < text.utf8ByteSize) :
    limit ≤ kept.utf8ByteSize + 3 := by
  obtain ⟨rest, rfl⟩ := h.exists_rest
  match hrest : rest.toList with
  | [] =>
    have hempty : rest = "" := String.toList_eq_nil_iff.mp hrest
    have hfits := h.fits
    rw [hempty, String.append_empty] at hlong
    omega
  | c :: cs =>
    have hnext : kept ++ rest = (kept ++ .singleton c) ++ .ofList cs := by
      rw [← String.toList_inj]
      simp [hrest]
    have hsize : (kept ++ String.singleton c).utf8ByteSize = kept.utf8ByteSize + c.utf8Size := by
      rw [String.utf8ByteSize_append, String.utf8ByteSize_singleton]
    have hfour := c.utf8Size_le_four
    have hpos := c.utf8Size_pos
    by_cases hfits : kept.utf8ByteSize + c.utf8Size ≤ limit
    · have hle := h.longest _ _ hnext (hsize ▸ hfits)
      omega
    · omega

end LongestFit

/-! ## 3. Going back -/

/-- No character is cut in two at the positions where a prefix ends. -/
theorem isValid_iff_exists_prefix {text : String} {i : Nat} :
    String.Pos.Raw.isValid text ⟨i⟩ = true ↔
      ∃ other rest, text = other ++ rest ∧ other.utf8ByteSize = i := by
  rw [String.Pos.Raw.isValid_eq_true_iff, String.Pos.Raw.isValid_iff_exists_append]
  refine exists₂_congr fun other rest => and_congr_right fun _ => ?_
  rw [String.Pos.Raw.ext_iff, String.byteIdx_rawEndPos]
  exact eq_comm

namespace LongestFit

variable {limit : Nat} {text kept : String}

theorem isValid (h : LongestFit limit text kept) :
    String.Pos.Raw.isValid text ⟨kept.utf8ByteSize⟩ = true := by
  obtain ⟨rest, hrest⟩ := h.exists_rest
  exact isValid_iff_exists_prefix.mpr ⟨kept, rest, hrest, rfl⟩

/-- Between the longest prefix and the limit every position cuts a character in two. -/
theorem not_isValid (h : LongestFit limit text kept) {i : Nat} (hkept : kept.utf8ByteSize < i)
    (hi : i ≤ limit) : String.Pos.Raw.isValid text ⟨i⟩ ≠ true := by
  intro hvalid
  obtain ⟨other, rest, htext, rfl⟩ := isValid_iff_exists_prefix.mp hvalid
  exact absurd (h.longest other rest htext hi) (Nat.not_le_of_lt hkept)

/-- Going back from any position up to the limit ends where the longest prefix that fits does. -/
theorem boundaryUpTo?_eq (h : LongestFit limit text kept) {i : Nat} (hkept : kept.utf8ByteSize ≤ i)
    (hi : i ≤ limit) : boundaryUpTo? text i = some kept.utf8ByteSize := by
  have hvalid := h.isValid
  induction i with
  | zero =>
    rw [Nat.le_zero.mp hkept] at hvalid ⊢
    rw [boundaryUpTo?, if_pos hvalid]
  | succ i ih =>
    rw [boundaryUpTo?]
    rcases Nat.lt_or_eq_of_le hkept with hlt | heq
    · rw [if_neg (h.not_isValid hlt hi)]
      exact ih (Nat.le_of_lt_succ hlt) (Nat.le_of_succ_le hi)
    · rw [heq] at hvalid ⊢
      rw [if_pos hvalid]

/-- The bytes before the end of a prefix are the prefix. -/
theorem bytesBefore?_eq (h : LongestFit limit text kept) :
    bytesBefore? text kept.utf8ByteSize = some kept := by
  obtain ⟨rest, rfl⟩ := h.exists_rest
  have hbytes : (kept ++ rest).toUTF8.extract 0 kept.utf8ByteSize = kept.toByteArray := by
    rw [String.toUTF8_eq_toByteArray, String.toByteArray_append]
    exact ByteArray.extract_append_eq_left rfl
  rw [bytesBefore?, hbytes, String.fromUTF8?, dif_pos kept.isValidUTF8]
  rfl

end LongestFit

/-- **The cut by bytes does not fail**, and gives what is taken from the front. -/
theorem cut?_eq (limit : Nat) (text : String) :
    cut? limit text = some (.ofList (takeBytes limit text.toList)) := by
  have hfit := longestFit_takeBytes limit text
  have hposition := hfit.boundaryUpTo?_eq hfit.fits (Nat.le_refl limit)
  simp only [cut?, hposition, Option.bind_eq_bind, Option.bind_some, hfit.bytesBefore?_eq]

theorem Json.excerpt_of_le {v : Json} (h : v.compact.utf8ByteSize ≤ excerptLimit) :
    v.excerpt = v.compact := by
  rw [excerpt, if_pos h]

theorem Json.excerpt_of_lt {v : Json} (h : excerptLimit < v.compact.utf8ByteSize) :
    v.excerpt = .ofList (takeBytes excerptLimit v.compact.toList) ++ "..." := by
  rw [excerpt, if_neg (Nat.not_le_of_lt h), String.ofList_append]

/-- The excerpt that is cut by bytes is the excerpt. -/
theorem Json.cutExcerpt?_eq (v : Json) : v.cutExcerpt? = some v.excerpt := by
  rw [cutExcerpt?]
  split
  · next h => rw [excerpt_of_le h]
  · next h => rw [cut?_eq, excerpt_of_lt (Nat.lt_of_not_le h), Option.map_some]

/-- **Excerpts of values.**  Cut by bytes an excerpt comes out the same: the search for a position
does not go below the first byte, and no character is cut in two.  A text of at most 120 bytes is
its own excerpt; of a longer one the excerpt is the longest prefix of whole characters that takes up
at most 120 bytes, which is the one up to the position found, and three dots after it.  So at most
three bytes of the limit are left over, and an excerpt has at most 123 bytes. -/
theorem Json.excerpt_cut (v : Json) :
    v.cutExcerpt? = some v.excerpt ∧
    (v.compact.utf8ByteSize ≤ 120 → v.excerpt = v.compact) ∧
    (120 < v.compact.utf8ByteSize → ∃ kept, LongestFit 120 v.compact kept ∧
      boundaryUpTo? v.compact 120 = some kept.utf8ByteSize ∧
      117 ≤ kept.utf8ByteSize ∧ kept.utf8ByteSize ≤ 120 ∧ v.excerpt = kept ++ "...") ∧
    v.excerpt.utf8ByteSize ≤ 123 := by
  have hfit := longestFit_takeBytes 120 v.compact
  refine ⟨v.cutExcerpt?_eq, Json.excerpt_of_le, fun hlong => ?_, ?_⟩
  · have hlimit := hfit.limit_le hlong
    exact ⟨_, hfit, hfit.boundaryUpTo?_eq hfit.fits (Nat.le_refl 120), by omega, hfit.fits,
      Json.excerpt_of_lt hlong⟩
  · rcases Nat.lt_or_ge 120 v.compact.utf8ByteSize with hlong | hshort
    · have hdots : "...".utf8ByteSize = 3 := by rfl
      rw [Json.excerpt_of_lt hlong, String.utf8ByteSize_append, hdots]
      exact Nat.add_le_add_right hfit.fits 3
    · rw [Json.excerpt_of_le hshort]
      omega

namespace Example

/-- A text of thirty characters of four bytes each, which take up 122 bytes with the quotes. -/
def faces : Json :=
  .str (.ofList (List.replicate 30 '😀'))

/-- The quote and the first 29 of them. -/
def facesKept : String :=
  .ofList ('"' :: List.replicate 29 '😀')

end Example

/-- The limit falls behind the third byte of a character, so three bytes are left over. -/
theorem Json.excerpt_cut_faces :
    Example.faces.compact.utf8ByteSize = 122 ∧
    Example.faces.excerpt = Example.facesKept ++ "..." ∧
    LongestFit 120 Example.faces.compact Example.facesKept ∧
    boundaryUpTo? Example.faces.compact 120 = some 117 := by
  have hcompact : Example.faces.compact =
      .ofList ('"' :: (List.replicate 30 '😀' ++ ['"'])) := by
    rw [Example.faces, compact, quote, String.toList_ofList]
    rfl
  have hsize : Example.faces.compact.utf8ByteSize = 122 := by cbv
  have hkept : Example.facesKept.utf8ByteSize = 117 := by decide +kernel
  have hexcerpt : Example.faces.excerpt = Example.facesKept ++ "..." := by
    rw [Json.excerpt_of_lt (by rw [hsize]; decide), hcompact, String.toList_ofList]
    rfl
  obtain ⟨-, -, hlong, -⟩ := Json.excerpt_cut Example.faces
  obtain ⟨kept, hfit, hboundary, -, -, heq⟩ := hlong (by rw [hsize]; decide)
  obtain rfl : Example.facesKept = kept := (String.append_left_inj _).mp (hexcerpt.symm.trans heq)
  rw [hkept] at hboundary
  exact ⟨hsize, hexcerpt, hfit, hboundary⟩

end Avro
