import Mathlib.Data.List.DropRight
import RalphexRunner.Text.Percent

/-!
# The addresses of http requests

How the URL standard reads the text of an http address, as far as the path goes: where the
authority and the path begin and end, which characters of a path are escaped, and which of its
segments stand for the directory itself or the one above.  The host and the port inside the
authority are left as they are.

The text that continues an address below a slash continues its path: nothing in front of the slash
is read differently for it.
-/

namespace RalphexRunner

/-- An address as it is requested. -/
structure Url where
  scheme : Text
  authority : Text
  path : List Text
  query : Option Text
  fragment : Option Text
  deriving DecidableEq

namespace Url

def isBlank (character : Char) : Bool := character.toNat ≤ 0x20

def isTabOrNewline (character : Char) : Bool := character ∈ ['\t', '\n', '\r']

/-- A separator of path segments; the standard reads a backslash as one too. -/
def isSlash (character : Char) : Bool := character ∈ ['/', '\\']

/-- A character that ends the path. -/
def isMark (character : Char) : Bool := character ∈ ['?', '#']

def endsAuthority (character : Char) : Bool := isSlash character || isMark character

/-- The text that is read: nothing blank around it, no tab and no line break in it. -/
def cleaned (input : Text) : Text :=
  ((input.dropWhile isBlank).rdropWhile isBlank).filter (!isTabOrNewline ·)

/-- A text with the control characters, those outside ASCII and the given ones escaped. -/
def escaped (more : Text) (text : Text) : Text :=
  text.flatMap fun character ↦
    if character.toNat ≤ 0x1F ∨ 0x7E < character.toNat ∨ character ∈ more then
      Percent.encode (fun _ ↦ false) (Utf8.encode [character])
    else [character]

/-- What is escaped in a path besides control characters. -/
def pathEscapes : Text := " \"#<>?^\x60\x7b\x7d".toList

def queryEscapes : Text := " \"#<>\x27".toList

def fragmentEscapes : Text := " \"<>\x60".toList

/-- The segments that stand for the directory they are in. -/
def singleDots : List Text := [".".toList, "%2e".toList, "%2E".toList]

/-- The segments that stand for the directory above. -/
def doubleDots : List Text :=
  singleDots.flatMap fun first ↦ singleDots.map fun second ↦ first ++ second

/-- The path one segment further. -/
def enter (path : List Text) (segment : Text) : List Text :=
  if segment ∈ doubleDots then path.dropLast
  else if segment ∈ singleDots then path
  else path ++ [segment]

/-- What stands behind the last separator once a segment of dots is gone from there. -/
def closing (segments : List Text) : List Text :=
  if segments.getLast?.any fun last ↦ last ∈ doubleDots ∨ last ∈ singleDots then [[]] else []

/-- The path that segments lead to. -/
def normalise (segments : List Text) : List Text := segments.foldl enter [] ++ closing segments

/-- The segments of a path that begins with a separator. -/
def segmentsOf (path : Text) : List Text := (path.drop 1).splitOnP isSlash

def pathOf (path : Text) : List Text := normalise ((segmentsOf path).map (escaped pathEscapes))

def queryOf (tail : Text) : Option Text :=
  if tail.head? = some '?' then
    some (escaped queryEscapes ((tail.drop 1).takeWhile (· ≠ '#')))
  else none

def fragmentOf (tail : Text) : Option Text :=
  if '#' ∈ tail then some (escaped fragmentEscapes ((tail.dropWhile (· ≠ '#')).drop 1)) else none

def webSchemes : List Text := ["http".toList, "https".toList]

/-- The address a text is read as, if it is one of a web scheme and names a host. -/
def parse (input : Text) : Option Url :=
  let text := cleaned input
  let scheme := text.takeWhile (· ≠ ':')
  let behind := ((text.dropWhile (· ≠ ':')).drop 1).dropWhile isSlash
  let authority := behind.takeWhile (!endsAuthority ·)
  let rest := behind.dropWhile (!endsAuthority ·)
  let tail := rest.dropWhile (!isMark ·)
  if scheme.map Char.toLower ∈ webSchemes ∧ authority ≠ [] then
    some
      { scheme := scheme.map Char.toLower
        authority := authority
        path := pathOf (rest.takeWhile (!isMark ·))
        query := queryOf tail
        fragment := fragmentOf tail }
  else none

example : (parse "HTTP://farm:7077/a/./%2e%2E/b/..?x".toList).map (·.path) = some [[]] := by decide

/-! ## Where the parts of an address are -/

/-- The parts a text is cut into. -/
structure Spelled (text scheme slashes authority path tail : Text) : Prop where
  text_eq : text = scheme ++ ':' :: (slashes ++ (authority ++ (path ++ tail)))
  scheme_mem : scheme.map Char.toLower ∈ webSchemes
  slashes_all : ∀ character ∈ slashes, isSlash character = true
  authority_ne : authority ≠ []
  authority_all : ∀ character ∈ authority, endsAuthority character = false
  path_head : ∀ character ∈ path.head?, isSlash character = true
  path_all : ∀ character ∈ path, isMark character = false
  tail_head : ∀ character ∈ tail.head?, isMark character = true

/-- What a text is read as, from its parts. -/
def assembled (scheme authority path tail : Text) : Url where
  scheme := scheme.map Char.toLower
  authority := authority
  path := pathOf path
  query := queryOf tail
  fragment := fragmentOf tail

/-- A text is cut where its front ends. -/
theorem span_append (keeps : Char → Bool) {front back : Text}
    (hfront : ∀ character ∈ front, keeps character = true)
    (hback : ∀ character ∈ back.head?, keeps character = false) :
    (front ++ back).takeWhile keeps = front ∧ (front ++ back).dropWhile keeps = back := by
  rw [List.takeWhile_append_of_pos hfront, List.dropWhile_append_of_pos hfront]
  cases back with
  | nil => exact ⟨List.append_nil _, rfl⟩
  | cons character back =>
      have hstop := hback character rfl
      rw [List.takeWhile_cons, List.dropWhile_cons, hstop]
      exact ⟨List.append_nil _, rfl⟩

theorem head?_dropWhile_eq (keeps : Char → Bool) (text : Text) :
    ∀ character ∈ (text.dropWhile keeps).head?, keeps character = false := by
  intro character hhead
  have hnot := List.head?_dropWhile_not keeps text
  rw [Option.mem_def.mp hhead] at hnot
  simpa using hnot

section Spelled

variable {input text scheme slashes authority path tail : Text} {url : Url}

theorem Spelled.colon_notMem (h : Spelled text scheme slashes authority path tail) :
    ':' ∉ scheme := fun hmem ↦ by
  have hlower : ':' ∈ scheme.map Char.toLower := List.mem_map_of_mem hmem
  have hnone : ∀ web ∈ webSchemes, ':' ∉ web := by decide
  exact hnone _ h.scheme_mem hlower

theorem Spelled.head_authority (h : Spelled text scheme slashes authority path tail) :
    ∀ character ∈ (authority ++ (path ++ tail)).head?, isSlash character = false := by
  obtain ⟨first, rest, rfl⟩ := List.exists_cons_of_ne_nil h.authority_ne
  intro character hhead
  obtain rfl : first = character := Option.some.inj hhead
  exact (Bool.or_eq_false_iff.mp (h.authority_all _ List.mem_cons_self)).1

theorem Spelled.head_path (h : Spelled text scheme slashes authority path tail) :
    ∀ character ∈ (path ++ tail).head?, endsAuthority character = true := by
  intro character hhead
  cases path with
  | nil => exact Bool.or_eq_true_iff.mpr (.inr (h.tail_head character hhead))
  | cons first rest => exact Bool.or_eq_true_iff.mpr (.inl (h.path_head character hhead))

/-- An address is read part by part. -/
theorem Spelled.parse_eq (h : Spelled (cleaned input) scheme slashes authority path tail) :
    parse input = some (assembled scheme authority path tail) := by
  obtain ⟨hscheme, hbehind⟩ := span_append (· ≠ ':')
    (fun character hmem ↦ decide_eq_true fun heq ↦ h.colon_notMem (heq ▸ hmem))
    (show ∀ character ∈ (':' :: (slashes ++ (authority ++ (path ++ tail)))).head?,
      decide (character ≠ ':') = false from
      fun character hhead ↦ by rw [← Option.some.inj hhead]; decide)
  have hslashes := (span_append isSlash h.slashes_all h.head_authority).2
  obtain ⟨hauthority, hrest⟩ := span_append (!endsAuthority ·)
    (fun character hmem ↦ by rw [h.authority_all character hmem]; rfl)
    (fun character hhead ↦ by rw [h.head_path character hhead]; rfl)
  obtain ⟨hpath, htail⟩ := span_append (!isMark ·)
    (fun character hmem ↦ by rw [h.path_all character hmem]; rfl)
    (fun character hhead ↦ by rw [h.tail_head character hhead]; rfl)
  unfold parse
  simp only [h.text_eq, hscheme, hbehind, List.drop_one, List.tail_cons, hslashes, hauthority,
    hrest, hpath, htail]
  rw [if_pos ⟨h.scheme_mem, h.authority_ne⟩, assembled]

/-- A text has a colon where something is found behind it. -/
theorem behind_colon (h : (text.dropWhile (· ≠ ':')).drop 1 ≠ []) :
    text.dropWhile (· ≠ ':') = ':' :: (text.dropWhile (· ≠ ':')).drop 1 := by
  have hhead := head?_dropWhile_eq (· ≠ ':') text
  generalize text.dropWhile (· ≠ ':') = behind at h hhead ⊢
  cases behind with
  | nil => exact absurd rfl h
  | cons first rest =>
      have hfirst := hhead first rfl
      rw [decide_eq_false_iff_not, not_not] at hfirst
      rw [hfirst, List.drop_one, List.tail_cons]

/-- Every address that is read has parts. -/
theorem spelled_of_parse (h : parse input = some url) :
    ∃ scheme slashes authority path tail,
      Spelled (cleaned input) scheme slashes authority path tail ∧
        url = assembled scheme authority path tail := by
  unfold parse at h
  simp only at h
  generalize cleaned input = text at h ⊢
  split at h
  · rename_i hweb
    obtain ⟨hscheme, hauthority⟩ := hweb
    refine ⟨text.takeWhile (· ≠ ':'), ((text.dropWhile (· ≠ ':')).drop 1).takeWhile isSlash,
      _, _, _,
      ⟨?_, hscheme, fun _ ↦ List.mem_takeWhile_imp, hauthority, fun character hmem ↦ ?_,
        fun character hhead ↦ ?_, fun character hmem ↦ ?_, fun character hhead ↦ ?_⟩,
      (Option.some.inj h).symm⟩
    · rw [List.takeWhile_append_dropWhile, List.takeWhile_append_dropWhile,
        List.takeWhile_append_dropWhile, ← behind_colon, List.takeWhile_append_dropWhile]
      intro hnil
      rw [hnil] at hauthority
      exact hauthority rfl
    · simpa using List.mem_takeWhile_imp hmem
    · generalize (((text.dropWhile (· ≠ ':')).drop 1).dropWhile isSlash) = behind at hhead
      have hends := head?_dropWhile_eq (!endsAuthority ·) behind
      generalize behind.dropWhile (!endsAuthority ·) = rest at hhead hends
      cases rest with
      | nil => exact absurd hhead (Option.some_ne_none character).symm
      | cons first rest =>
          have hfirst : endsAuthority first = true := by simpa using hends first rfl
          rw [List.takeWhile_cons] at hhead
          split at hhead
          · rename_i hmark
            obtain rfl : first = character := Option.some.inj hhead
            have hother : isMark first = false := by simpa using hmark
            exact (Bool.or_eq_true_iff.mp hfirst).resolve_right (by rw [hother]; decide)
          · exact absurd hhead (Option.some_ne_none character).symm
    · simpa using List.mem_takeWhile_imp hmem
    · simpa using head?_dropWhile_eq (!isMark ·) _ character hhead
  · exact absurd h (Option.some_ne_none url).symm

end Spelled

theorem isBlank_of_isTabOrNewline {character : Char} (h : isBlank character = false) :
    isTabOrNewline character = false := by
  have hblank : ['\t', '\n', '\r'].all isBlank = true := by decide
  refine decide_eq_false fun hmem ↦ ?_
  rw [List.all_eq_true.mp hblank character hmem] at h
  exact absurd h (by decide)

/-- Nothing is cleaned away behind a slash where nothing is blank. -/
theorem cleaned_below (front : Text) : ∃ kept, ∀ more,
    (∀ character ∈ more, isBlank character = false) →
      cleaned (front ++ '/' :: more) = kept ++ '/' :: more := by
  refine ⟨(front.dropWhile isBlank).filter (!isTabOrNewline ·), fun more hmore ↦ ?_⟩
  have hbehind : ∀ character ∈ '/' :: more, isBlank character = false := by
    intro character hmem
    rcases List.mem_cons.mp hmem with rfl | hin
    · decide
    · exact hmore character hin
  have hleft : (front ++ '/' :: more).dropWhile isBlank =
      front.dropWhile isBlank ++ '/' :: more := by
    rw [List.dropWhile_append]
    split
    · rename_i hempty
      rw [List.isEmpty_iff.mp hempty]
      rfl
    · rfl
  have hright : (front.dropWhile isBlank ++ '/' :: more).rdropWhile isBlank =
      front.dropWhile isBlank ++ '/' :: more := by
    rw [List.rdropWhile_eq_self_iff]
    intro hne
    rw [List.getLast_append_of_ne_nil _ (List.cons_ne_nil '/' more), hbehind _ (List.getLast_mem _)]
    decide
  have hkept : ('/' :: more).filter (!isTabOrNewline ·) = '/' :: more :=
    List.filter_eq_self.mpr fun character hmem ↦ by
      rw [isBlank_of_isTabOrNewline (hbehind character hmem)]
      rfl
  rw [cleaned, hleft, hright, List.filter_append, hkept]

/-- The segments of a path that goes on behind a slash. -/
theorem segmentsOf_below (front : Text) : ∃ segments, ∀ more,
    segmentsOf (front ++ '/' :: more) = segments ++ more.splitOnP isSlash := by
  cases front with
  | nil => exact ⟨[], fun more ↦ rfl⟩
  | cons first front =>
      exact ⟨front.splitOnP isSlash, fun more ↦ List.splitOnP_append_cons front more (by decide)⟩

theorem closing_append (front : List Text) {back : List Text} (h : back ≠ []) :
    closing (front ++ back) = closing back := by
  rw [closing, closing, List.getLast?_append_of_ne_nil front h]

/-- The path goes on from the directory it had led to. -/
theorem pathOf_below (front : Text) : ∃ directory, ∀ more,
    pathOf (front ++ '/' :: more) =
      ((more.splitOnP isSlash).map (escaped pathEscapes)).foldl enter directory ++
        closing ((more.splitOnP isSlash).map (escaped pathEscapes)) := by
  obtain ⟨segments, hsegments⟩ := segmentsOf_below front
  refine ⟨(segments.map (escaped pathEscapes)).foldl enter [], fun more ↦ ?_⟩
  have hne : (more.splitOnP isSlash).map (escaped pathEscapes) ≠ [] :=
    List.map_eq_nil_iff.not.mpr (List.splitOnP_ne_nil isSlash more)
  rw [pathOf, hsegments, List.map_append, normalise, List.foldl_append, closing_append _ hne]

theorem eq_nil_of_no_query {tail : Text} (hquery : queryOf tail = none)
    (hfragment : fragmentOf tail = none)
    (htail : ∀ character ∈ tail.head?, isMark character = true) : tail = [] := by
  cases tail with
  | nil => rfl
  | cons first rest =>
      have hmark := of_decide_eq_true (htail first rfl)
      rcases List.mem_cons.mp hmark with rfl | hhash
      · rw [queryOf, if_pos (by rfl)] at hquery
        exact absurd hquery (Option.some_ne_none _)
      · rw [List.mem_singleton.mp hhash, fragmentOf, if_pos List.mem_cons_self] at hfragment
        exact absurd hfragment (Option.some_ne_none _)

/-- The last slash of an address belongs to its path. -/
theorem Spelled.path_below {kept scheme slashes authority path : Text}
    (h : Spelled (kept ++ ['/']) scheme slashes authority path []) :
    ∃ above, path = above ++ ['/'] ∧
      kept = scheme ++ ':' :: (slashes ++ (authority ++ above)) := by
  have htext := h.text_eq
  rw [List.append_nil] at htext
  rcases List.eq_nil_or_concat' path with rfl | ⟨above, last, rfl⟩
  · obtain ⟨host, letter, rfl⟩ := (List.eq_nil_or_concat' authority).resolve_left h.authority_ne
    have hassoc : scheme ++ ':' :: (slashes ++ (host ++ [letter] ++ [])) =
        (scheme ++ ':' :: (slashes ++ host)) ++ [letter] := by simp
    rw [hassoc] at htext
    have hletter := List.append_inj_right' htext rfl
    have hends := h.authority_all letter (List.mem_append_right host List.mem_cons_self)
    rw [← List.head_eq_of_cons_eq hletter] at hends
    exact absurd hends (by decide)
  · have hassoc : scheme ++ ':' :: (slashes ++ (authority ++ (above ++ [last]))) =
        (scheme ++ ':' :: (slashes ++ (authority ++ above))) ++ [last] := by simp
    rw [hassoc] at htext
    have hlast := List.append_inj_right' htext rfl
    exact ⟨above, by rw [hlast], List.append_inj_left' htext rfl⟩

/-- An address with nothing behind its last slash is the directory of every address below it. -/
theorem parse_below {front : Text} {base : Url} (h : parse (front ++ ['/']) = some base)
    (hquery : base.query = none) (hfragment : base.fragment = none) (more tail : Text)
    (hblank : ∀ character ∈ more ++ tail, isBlank character = false)
    (hmore : ∀ character ∈ more, isMark character = false)
    (htail : ∀ character ∈ tail.head?, isMark character = true) :
    parse (front ++ '/' :: (more ++ tail)) = some
      { scheme := base.scheme
        authority := base.authority
        path :=
          ((more.splitOnP isSlash).map (escaped pathEscapes)).foldl enter base.path.dropLast ++
            closing ((more.splitOnP isSlash).map (escaped pathEscapes))
        query := queryOf tail
        fragment := fragmentOf tail } := by
  obtain ⟨scheme, slashes, authority, path, rest, hbase, rfl⟩ := spelled_of_parse h
  obtain ⟨kept, hkept⟩ := cleaned_below front
  obtain rfl := eq_nil_of_no_query hquery hfragment hbase.tail_head
  rw [hkept [] fun character hmem ↦ absurd hmem List.not_mem_nil] at hbase
  obtain ⟨above, rfl, rfl⟩ := hbase.path_below
  obtain ⟨directory, hdirectory⟩ := pathOf_below above
  have hspelled : Spelled (cleaned (front ++ '/' :: (more ++ tail))) scheme slashes authority
      (above ++ '/' :: more) tail := by
    refine ⟨?_, hbase.scheme_mem, hbase.slashes_all, hbase.authority_ne, hbase.authority_all,
      ?_, ?_, htail⟩
    · rw [hkept _ hblank]
      simp
    · intro character hhead
      refine hbase.path_head character ?_
      cases above with
      | nil => exact hhead
      | cons first above => exact hhead
    · intro character hmem
      rw [List.append_cons, List.mem_append] at hmem
      exact hmem.elim (hbase.path_all character) (hmore character)
  have hstays : enter directory [] = directory ++ [[]] := by
    rw [enter, if_neg (by decide), if_neg (by decide)]
  have hdirectoryPath : pathOf (above ++ ['/']) = directory ++ [[]] := by
    have hopen : closing [[]] = [] := by decide
    rw [hdirectory [], List.splitOnP_nil, List.map_singleton, List.foldl_cons, List.foldl_nil]
    change enter directory [] ++ closing [[]] = _
    rw [hstays, hopen, List.append_nil]
  rw [hspelled.parse_eq, assembled, assembled, hdirectory more, hdirectoryPath,
    List.dropLast_concat]

/-- A character that is itself in a segment of a path. -/
def isPlain (character : Char) : Bool :=
  0x20 < character.toNat ∧ character.toNat ≤ 0x7E ∧ character ∉ pathEscapes ∧
    isSlash character = false

section Plain

variable {character : Char} {text : Text}

theorem isPlain_iff : isPlain character = true ↔
    0x20 < character.toNat ∧ character.toNat ≤ 0x7E ∧ character ∉ pathEscapes ∧
      isSlash character = false := decide_eq_true_iff

theorem isBlank_of_isPlain (h : isPlain character = true) : isBlank character = false :=
  decide_eq_false (Nat.not_le.mpr (isPlain_iff.mp h).1)

theorem isMark_of_isPlain (h : isPlain character = true) : isMark character = false := by
  have hmarks : (['?', '#'].all fun mark ↦ mark ∈ pathEscapes) = true := by decide
  refine decide_eq_false fun hmem ↦ (isPlain_iff.mp h).2.2.1 ?_
  exact of_decide_eq_true (List.all_eq_true.mp hmarks character hmem)

theorem escaped_eq_self {more : Text} (h : ∀ character ∈ text,
    0x1F < character.toNat ∧ character.toNat ≤ 0x7E ∧ character ∉ more) :
    escaped more text = text := by
  induction text with
  | nil => rfl
  | cons character text ih =>
      obtain ⟨hlow, hhigh, hmore⟩ := h character List.mem_cons_self
      have hkept : ¬(character.toNat ≤ 0x1F ∨ 0x7E < character.toNat ∨ character ∈ more) :=
        not_or.mpr ⟨Nat.not_le.mpr hlow, not_or.mpr ⟨Nat.not_lt.mpr hhigh, hmore⟩⟩
      have hrest := ih fun other hmem ↦ h other (List.mem_cons_of_mem character hmem)
      rw [escaped] at hrest ⊢
      rw [List.flatMap_cons, if_neg hkept, hrest, List.singleton_append]

theorem escaped_plain (h : ∀ character ∈ text, isPlain character = true) :
    escaped pathEscapes text = text :=
  escaped_eq_self fun character hmem ↦
    have hplain := isPlain_iff.mp (h character hmem)
    ⟨Nat.lt_of_succ_lt hplain.1, hplain.2.1, hplain.2.2.1⟩

theorem splitOnP_plain (h : ∀ character ∈ text, isPlain character = true) :
    text.splitOnP isSlash = [text] :=
  List.splitOnP_eq_singleton fun character hmem ↦ (isPlain_iff.mp (h character hmem)).2.2.2

end Plain

theorem enter_segment {segment : Text} (hdouble : segment ∉ doubleDots)
    (hsingle : segment ∉ singleDots) (path : List Text) :
    enter path segment = path ++ [segment] := by
  rw [enter, if_neg hdouble, if_neg hsingle]

theorem decode_singleDots {segment : Text} (h : segment ∈ singleDots) :
    Percent.decode segment = Utf8.encode ".".toList := by
  have hall : ∀ dots ∈ singleDots, Percent.decode dots = Utf8.encode ".".toList := by decide
  exact hall segment h

theorem decode_doubleDots {segment : Text} (h : segment ∈ doubleDots) :
    Percent.decode segment = Utf8.encode "..".toList := by
  have hall : ∀ dots ∈ doubleDots, Percent.decode dots = Utf8.encode "..".toList := by decide
  exact hall segment h

end Url

end RalphexRunner
