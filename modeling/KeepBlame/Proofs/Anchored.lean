import KeepBlame.Basics
import KeepBlame.Exclusion

/-! Patterns below a base directory. The base is written in front of the pattern so that it matches only itself, with a
slash between the two; whatever the pattern matches alone it then matches below the base. A base that ends in a slash
has that slash already, and then the pattern matches nothing. -/
namespace KeepBlame.Glob

inductive Spells : Bool → List Char → List GlobToken → Prop where
  | nil {start} : Spells start [] []
  | components : Spells true ['*', '*'] [.anyComponents]
  | intoComponents {rest tokens} (next : Spells true rest tokens) :
      Spells true ('*' :: '*' :: '/' :: rest) (.anyComponents :: tokens)
  | run {start rest tokens} (alone : ∀ more, rest ≠ '*' :: more) (next : Spells false rest tokens) :
      Spells start ('*' :: rest) (.anyRun :: tokens)
  | any {start rest tokens} (next : Spells false rest tokens) : Spells start ('?' :: rest) (.anyChar :: tokens)
  | oneOf {start rest after token tokens} (members : readClass rest = some (token, after))
      (next : Spells false after tokens) : Spells start ('[' :: rest) (token :: tokens)
  | char {start c rest tokens} (other : c ≠ '*' ∧ c ≠ '?' ∧ c ≠ '[') (next : Spells (c == '/') rest tokens) :
      Spells start (c :: rest) (.char c :: tokens)

theorem readTokensSpells {size : Nat} {before : Option Char} {cs : List Char} {tokens : List GlobToken}
    (ok : readTokens size before cs = .ok tokens) : Spells (startsComponent before) cs tokens := by
  fun_induction readTokens size before cs generalizing tokens with
  | case1 =>
    cases ok
    exact .nil
  | case2 => cases ok
  | case3 before start =>
    cases ok
    rw [start]
    exact .components
  | case4 before start rest _ ih =>
    obtain ⟨later, read, rfl⟩ := mapOk ok
    rw [start]
    exact .intoComponents (ih read)
  | case5 => cases ok
  | case6 => cases ok
  | case7 before rest _ alone ih =>
    obtain ⟨later, read, rfl⟩ := mapOk ok
    exact .run alone (ih read)
  | case8 before rest ih =>
    obtain ⟨later, read, rfl⟩ := mapOk ok
    exact .any (ih read)
  | case9 => cases ok
  | case10 before rest token after members ih =>
    obtain ⟨later, read, rfl⟩ := mapOk ok
    exact .oneOf members (ih read)
  | case11 before c rest _ _ star question bracket ih =>
    obtain ⟨later, read, rfl⟩ := mapOk ok
    exact .char ⟨star, question, bracket⟩ (ih read)

theorem spellsReadTokens {start : Bool} {cs : List Char} {tokens : List GlobToken} (spells : Spells start cs tokens)
    (size : Nat) {before : Option Char} (starts : startsComponent before = start) :
    readTokens size before cs = .ok tokens := by
  induction spells generalizing before with
  | nil => rw [readTokens]
  | components => rw [readTokens, if_pos starts]
  | intoComponents next ih =>
    rw [readTokens, if_pos starts, ih rfl]
    rfl
  | run alone next ih =>
    rw [readTokens, ih rfl]
    · rfl
    · exact fun more same => alone _ same
    · exact fun more same => alone _ same
  | any next ih =>
    rw [readTokens, ih rfl]
    rfl
  | oneOf members next ih =>
    rw [readTokens]
    split
    · rename_i none
      rw [members] at none
      cases none
    · rename_i found
      rw [members] at found
      cases found
      rw [ih rfl]
      rfl
  | char other next ih =>
    rw [readTokens, ih rfl]
    · rfl
    · exact fun _ star _ => other.1 star
    · exact fun _ star _ => other.1 star
    · exact other.1
    · exact other.2.1
    · exact other.2.2

theorem parsedIff {text : String} {g : Glob} : parse text = .ok g ↔ g.text = text ∧ Spells true text.toList g.tokens := by
  have starts : startsComponent none = true := rfl
  unfold parse
  constructor
  · intro ok
    split at ok <;> cases ok
    rename_i read
    exact ⟨rfl, readTokensSpells read⟩
  · intro is
    obtain ⟨rfl, spells⟩ := is
    rw [spellsReadTokens spells _ starts]

def isMark (c : Char) : Bool := c == '?' || c == '*' || c == '[' || c == ']'

def literal (c : Char) : GlobToken := if isMark c then .oneOf false [⟨c, c⟩] else .char c

theorem escapeCons (c : Char) (cs : List Char) : escape (c :: cs) = (if isMark c then ['[', c, ']'] else [c]) ++ escape cs :=
  List.flatMap_cons

theorem spellsEscaped {rest : List Char} {tokens : List GlobToken} (next : ∀ start, Spells start rest tokens)
    (cs : List Char) (start : Bool) : Spells start (escape cs ++ rest) (cs.map literal ++ tokens) := by
  induction cs generalizing start with
  | nil => exact next start
  | cons c cs ih =>
    rw [escapeCons, List.map_cons, literal]
    cases mark : isMark c with
    | true =>
      have members : readClass (c :: ']' :: (escape cs ++ rest)) = some (.oneOf false [⟨c, c⟩], escape cs ++ rest) := by
        have other : c ≠ '!' := by
          rintro rfl
          cases mark
        simp [readClass, other, readMembers, Text.cutAt, members]
      exact .oneOf members (ih false)
    | false =>
      have other : c ≠ '*' ∧ c ≠ '?' ∧ c ≠ '[' := by
        simp only [isMark, Bool.or_eq_false_iff, beq_eq_false_iff_ne] at mark
        exact ⟨mark.1.1.2, mark.1.1.1, mark.1.2⟩
      exact .char other (ih _)

theorem matchLiteral (cs rest : List Char) (tokens : List GlobToken) :
    matchTokens (cs.map literal ++ tokens) (cs ++ rest) = matchTokens tokens rest := by
  induction cs with
  | nil => rfl
  | cons c cs ih =>
    rw [List.map_cons, List.cons_append, List.cons_append, literal]
    split
    · simp [matchTokens, GlobToken.admits, CharRange.holds, ih]
    · simp [matchTokens, GlobToken.admits, ih]

end KeepBlame.Glob

namespace KeepBlame.Exclusion

theorem belowParsed {base : Path} {raw : String} {alone : Glob} (pattern : isPattern raw = true)
    (relative : (Path.mk raw).isAbsolute = false) (valid : Glob.parse raw = .ok alone) : parse raw base =
      .ok (.glob ⟨below base raw, base.text.toList.map Glob.literal ++ .char '/' :: alone.tokens⟩) := by
  have slash (start : Bool) : Glob.Spells start ('/' :: raw.toList) (.char '/' :: alone.tokens) :=
    .char (by decide) (Glob.parsedIff.mp valid).2
  have escaped := Glob.spellsEscaped slash base.text.toList true
  have written : Glob.parse (below base raw) =
      .ok ⟨below base raw, base.text.toList.map Glob.literal ++ .char '/' :: alone.tokens⟩ := by
    rw [Glob.parsedIff, below, String.toList_ofList]
    exact ⟨rfl, escaped⟩
  rw [parse, if_pos pattern, relative, if_neg (by decide), written]

theorem joinText {base : Path} {r : String} (absolute : base.isAbsolute = true) (relative : (Path.mk r).isAbsolute = false) :
    (base.join r).text.toList =
      base.text.toList ++ (if base.text.toList.getLast? = some '/' then r.toList else '/' :: r.toList) := by
  have inner : Path.isAbsoluteText r.toList = false := relative
  have full : base.text.isEmpty = false := by
    cases empty : base.text.isEmpty with
    | false => rfl
    | true =>
      rw [Path.isAbsolute, String.isEmpty_iff.mp empty] at absolute
      cases absolute
  by_cases slash : base.text.toList.getLast? = some '/'
  · simp [Path.join, inner, slash]
  · simp [Path.join, inner, full, slash]

theorem afterSlash {cs : List Char} {tokens : List GlobToken} (relative : Path.isAbsoluteText cs = false) :
    Glob.matchTokens (.char '/' :: tokens) cs = false := by
  cases cs with
  | nil => rfl
  | cons c cs =>
    have other : c ≠ '/' := by simpa [Path.isAbsoluteText] using relative
    simp [Glob.matchTokens, GlobToken.admits, other]

/-- A pattern that is valid alone is valid below every base. It matches there what it matches alone, unless the base ends
in a slash: then it matches nothing. -/
theorem anchoredUnlessSlash {base : Path} {raw : String} {alone : Glob} (absolute : base.isAbsolute = true)
    (pattern : isPattern raw = true) (relative : (Path.mk raw).isAbsolute = false) (valid : Glob.parse raw = .ok alone) :
    ∃ g, parse raw base = .ok (.glob g) ∧ ∀ r, (Path.mk r).isAbsolute = false →
      (covers (.glob g) (base.join r) = true ↔ base.text.toList.getLast? ≠ some '/' ∧ alone.matchText r = true) := by
  refine ⟨_, belowParsed pattern relative valid, ?_⟩
  intro r inside
  rw [covers, Glob.matchText, joinText absolute inside, Glob.matchLiteral]
  by_cases slash : base.text.toList.getLast? = some '/'
  · rw [if_pos slash, afterSlash inside]
    simp [slash]
  · rw [if_neg slash]
    simp [slash, Glob.matchTokens, GlobToken.admits, Glob.matchText]

def otherSources : Glob := ⟨"**/[!b].c", [.anyComponents, .oneOf true [⟨'b', 'b'⟩], .char '.', .char 'c']⟩

theorem bracketedBaseAnchors : (Path.mk "/w/[a]*").isAbsolute = true ∧ isPattern otherSources.text = true ∧
    (Path.mk otherSources.text).isAbsolute = false ∧ Glob.parse otherSources.text = .ok otherSources ∧
    ∃ g, parse otherSources.text ⟨"/w/[a]*"⟩ = .ok (.glob g) ∧
      covers (.glob g) ((Path.mk "/w/[a]*").join "d/a.c") = true ∧
      covers (.glob g) ((Path.mk "/w/[a]*").join "d/b.c") = false := by
  have spelled : Glob.Spells true "**/[!b].c".toList otherSources.tokens :=
    .intoComponents (.oneOf rfl (.char (by decide) (.char (by decide) .nil)))
  have valid : Glob.parse otherSources.text = .ok otherSources := Glob.parsedIff.mpr ⟨rfl, spelled⟩
  obtain ⟨g, parsed, anchored⟩ := @anchoredUnlessSlash ⟨"/w/[a]*"⟩ _ _ (by decide) (by decide) (by decide) valid
  have matched : otherSources.matchText "d/a.c" = true := by decide
  have missed : otherSources.matchText "d/b.c" = false := by decide
  refine ⟨by decide, by decide, by decide, valid, g, parsed, (anchored _ (by decide)).mpr ⟨by decide, matched⟩, ?_⟩
  have outside := mt (anchored "d/b.c" (by decide)).mp
  rw [missed] at outside
  simpa using outside

theorem rootPatternMisses : ∃ alone g, Glob.parse "*.c" = .ok alone ∧ alone.matchText "a.c" = true ∧
    parse "*.c" ⟨"/"⟩ = .ok (.glob g) ∧ covers (.glob g) ((Path.mk "/").join "a.c") = false := by
  have spelled : Glob.Spells true ['*', '.', 'c'] [.anyRun, .char '.', .char 'c'] :=
    .run (by simp) (.char (by decide) (.char (by decide) .nil))
  have alone : Glob.parse "*.c" = .ok ⟨"*.c", [.anyRun, .char '.', .char 'c']⟩ := Glob.parsedIff.mpr ⟨rfl, spelled⟩
  exact ⟨_, _, alone, by decide, belowParsed (by decide) (by decide) alone, by decide⟩

end KeepBlame.Exclusion
