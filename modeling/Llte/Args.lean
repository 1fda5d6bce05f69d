import Mathlib.Algebra.Order.Ring.Int
import Mathlib.Data.List.Basic
import Mathlib.Logic.Function.Basic

/-! The command line: options with a value behind an equals sign or in the next token,
and flags. A token that looks like a negative number is never taken as a value. -/
namespace Llte

/-- A C string without its terminator. -/
abbrev Token := List Char

structure Args where
  values : Token → Option Token := fun _ => none

namespace Args

def isOption (token : Token) : Bool := ['-','-'].isPrefixOf token

/-- The loop over the tokens; one or two of them are used up in a round. -/
def scan (values : Token → Option Token) : List Token → (Token → Option Token)
  | [] => values
  | token::rest =>
    if ¬ isOption token then scan values rest
    else
      let token := token.drop 2
      match token.idxOf? '=' with
      | some equals => scan (Function.update values (token.take equals) (some (token.drop (equals+1)))) rest
      | none =>
        match rest with
        | [] => Function.update values token (some ['1'])
        | next::later =>
          -- an empty token starts with the terminator
          if next.head? ≠ some '-' then scan (Function.update values token (some next)) later
          else scan (Function.update values token (some ['1'])) (next::later)

/-- The program name is passed over. -/
def create (argv : List Token) : Args := ⟨scan (fun _ => none) argv.tail⟩

def has (args : Args) (key : Token) : Bool := (args.values key).isSome

def str (args : Args) (key fallback : Token) : Token := (args.values key).getD fallback

def digits : Nat → Token → Nat
  | value,[] => value
  | value,c::rest => if c.isDigit then digits (10*value + (c.toNat - '0'.toNat)) rest else value

def isSpace (c : Char) : Bool := c = ' ' ∨ 9 ≤ c.toNat ∧ c.toNat ≤ 13

/-- `strtoll` to base 10: leading blanks, a sign, digits, and the nearest 64-bit number. -/
def strtoll (text : Token) : Int :=
  let text := text.dropWhile isSpace
  let value : Int := match text with
    | '-'::rest => -(digits 0 rest)
    | '+'::rest => digits 0 rest
    | rest => digits 0 rest
  max (-2^63) (min value (2^63-1))

def integer (args : Args) (key : Token) (fallback : Int) : Int :=
  match args.values key with
  | none => fallback
  | some text => strtoll text

section Rounds
variable {values : Token → Option Token} {token : Token} {rest : List Token}

private theorem scan_plain (other : isOption token = false) : scan values (token::rest) = scan values rest := by
  rw [scan,if_pos (by simp [other])]

private theorem scan_assigned (option : isOption token = true) {equals : Nat}
    (found : (token.drop 2).idxOf? '=' = some equals) :
    scan values (token::rest) = scan (Function.update values ((token.drop 2).take equals)
      (some ((token.drop 2).drop (equals+1)))) rest := by
  rw [scan,if_neg (by simp [option])]
  simp only [found]

private theorem scan_valued (option : isOption token = true) (absent : (token.drop 2).idxOf? '=' = none) {next : Token}
    (value : next.head? ≠ some '-') : scan values (token::next::rest) =
      scan (Function.update values (token.drop 2) (some next)) rest := by
  rw [scan,if_neg (by simp [option])]
  simp only [absent]
  rw [if_pos value]

/-- A flag at the end of the list or in front of a token with a dash. -/
theorem scan_flag (option : isOption token = true) (absent : (token.drop 2).idxOf? '=' = none)
    (last : ∀ next ∈ rest.head?, next.head? = some '-') : scan values (token::rest) =
      scan (Function.update values (token.drop 2) (some ['1'])) rest := by
  cases rest with
  | nil =>
    change scan values [token] = Function.update values (token.drop 2) (some ['1'])
    rw [scan,if_neg (by simp [option])]
    simp only [absent]
  | cons next later =>
    rw [scan,if_neg (by simp [option])]
    simp only [absent]
    rw [if_neg (not_not.mpr (last next rfl))]

end Rounds

/-- The ways a round can go. -/
theorem round_cases (token : Token) (rest : List Token) :
    (∀ values, scan values (token::rest) = scan values rest) ∨
    (∃ key value later, later <:+ rest ∧
      ∀ values, scan values (token::rest) = scan (Function.update values key (some value)) later) := by
  by_cases option : isOption token = true
  · cases found : (token.drop 2).idxOf? '=' with
    | some equals => exact .inr ⟨_,_,rest,List.suffix_refl _,fun values => scan_assigned option found⟩
    | none =>
      by_cases valued : ∃ next later, rest = next::later ∧ next.head? ≠ some '-'
      · obtain ⟨next,later,rfl,value⟩ := valued
        exact .inr ⟨_,_,later,List.suffix_cons _ _,fun values => scan_valued option found value⟩
      · refine .inr ⟨_,_,rest,List.suffix_refl _,fun values => scan_flag option found ?_⟩
        intro next first
        obtain ⟨later,rfl⟩ := List.head?_eq_some_iff.mp first
        by_contra value
        exact valued ⟨next,later,rfl,value⟩
  · exact .inl fun values => scan_plain (Bool.eq_false_iff.mpr option)

/-- Later tokens overwrite what was there before. -/
theorem scan_overlay (tokens : List Token) (values : Token → Option Token) (key : Token) :
    scan values tokens key = (scan (fun _ => none) tokens key).or (values key) := by
  induction size : tokens.length using Nat.strongRecOn generalizing tokens values with
  | ind size ih =>
    cases tokens with
    | nil => rfl
    | cons token rest =>
      rw [List.length_cons] at size
      rcases round_cases token rest with same | ⟨name,value,later,suffix,round⟩
      · rw [same,same]
        exact ih rest.length (by omega) rest values rfl
      · have shorter := suffix.length_le
        rw [round,round,ih later.length (by omega) later _ rfl,
          ih later.length (by omega) later (Function.update (fun _ => none) name (some value)) rfl,Option.or_assoc]
        by_cases same : key = name
        · subst same
          rw [Function.update_self,Function.update_self]
          rfl
        · rw [Function.update_of_ne same,Function.update_of_ne same,Option.none_or]

/-- A token with a dash is never a value, so the tokens in front of it are read alone. -/
theorem scan_append {token : Token} (dash : token.head? = some '-') (before rest : List Token)
    (values : Token → Option Token) :
    scan values (before ++ token::rest) = scan (scan values before) (token::rest) := by
  induction size : before.length using Nat.strongRecOn generalizing before values with
  | ind size ih =>
    cases before with
    | nil => rfl
    | cons first others =>
      rw [List.length_cons] at size
      rw [List.cons_append]
      by_cases option : isOption first = true
      · cases found : (first.drop 2).idxOf? '=' with
        | some equals =>
          rw [scan_assigned option found,scan_assigned option found]
          exact ih others.length (by omega) others _ rfl
        | none =>
          by_cases valued : ∃ next later, others = next::later ∧ next.head? ≠ some '-'
          · obtain ⟨next,later,rfl,value⟩ := valued
            rw [List.length_cons] at size
            rw [List.cons_append,scan_valued option found value,scan_valued option found value]
            exact ih later.length (by omega) later _ rfl
          · have dashes : ∀ next ∈ others.head?, next.head? = some '-' := by
              intro next here
              obtain ⟨later,rfl⟩ := List.head?_eq_some_iff.mp here
              by_contra value
              exact valued ⟨next,later,rfl,value⟩
            rw [scan_flag option found dashes,scan_flag option found]
            · exact ih others.length (by omega) others _ rfl
            · intro next here
              cases others with
              | nil => exact Option.mem_some.mp here ▸ dash
              | cons second later => exact dashes next here
      · have other : isOption first = false := Bool.eq_false_iff.mpr option
        rw [scan_plain other,scan_plain other]
        exact ih others.length (by omega) others values rfl

/-- The token with the value behind an equals sign. -/
def joined (key value : Token) : Token := '-' :: '-' :: (key ++ '=' :: value)

def option (key : Token) : Token := '-' :: '-' :: key

section Spellings
variable {key value : Token} {values : Token → Option Token} {after : List Token} (plain : '=' ∉ key)
include plain

private theorem scan_joined : scan values (joined key value::after) =
    scan (Function.update values key (some value)) after := by
  have found : ((joined key value).drop 2).idxOf? '=' = some key.length := by
    change (key ++ '='::value).idxOf? '=' = some key.length
    rw [List.idxOf?_eq_some_iff]
    refine ⟨by simp,by simp,?_⟩
    intro j early
    rw [List.getElem_append_left early]
    intro same
    exact plain (same ▸ List.getElem_mem early)
  have option : isOption (joined key value) = true := rfl
  rw [scan_assigned option found]
  simp [joined]

private theorem scan_option (dash : value.head? ≠ some '-') : scan values (option key::value::after) =
    scan (Function.update values key (some value)) after := by
  have absent : ((option key).drop 2).idxOf? '=' = none := List.idxOf?_eq_none_iff.mpr plain
  have isOne : isOption (option key) = true := rfl
  exact scan_valued isOne absent dash

/-- A value with a dash is passed over, and the option becomes a flag. -/
theorem scan_option_dash (dash : value.head? = some '-') (single : isOption value = false) :
    scan values (option key::value::after) = scan (Function.update values key (some ['1'])) after := by
  have absent : ((option key).drop 2).idxOf? '=' = none := List.idxOf?_eq_none_iff.mpr plain
  have isOne : isOption (option key) = true := rfl
  have dashes : ∀ next ∈ (value::after).head?, next.head? = some '-' := by
    intro next here
    rw [← Option.mem_some.mp here]
    exact dash
  rw [scan_flag isOne absent dashes,scan_plain single]
  rfl

end Spellings

/-- Two maps that differ at one key only come to the same if that key is set again. -/
theorem scan_update_eq_iff {values : Token → Option Token} {after : List Token} {key first second : Token}
    (other : first ≠ second) :
    scan (Function.update values key (some first)) after = scan (Function.update values key (some second)) after ↔
      (scan (fun _ => none) after key).isSome = true := by
  constructor
  · intro same
    have here := congrFun same key
    rw [scan_overlay,scan_overlay after (Function.update values key (some second)),Function.update_self,
      Function.update_self] at here
    cases set_ : scan (fun _ => none) after key with
    | some value => rfl
    | none =>
      rw [set_,Option.none_or,Option.none_or] at here
      exact absurd (Option.some.inj here) other
  · intro set_
    funext name
    rw [scan_overlay,scan_overlay after (Function.update values key (some second))]
    by_cases same : name = key
    · subst same
      obtain ⟨value,again⟩ := Option.isSome_iff_exists.mp set_
      rw [again]
      rfl
    · rw [Function.update_of_ne same,Function.update_of_ne same]

/-- In every list, wherever the option stands, the two spellings give the same map exactly
if the value does not start with a dash or the rest of the list sets the key again. -/
theorem spellings_agree_iff (program : Token) (before after : List Token) (key value : Token)
    (plain : '=' ∉ key) (single : isOption value = false) :
    (create (program::(before ++ joined key value::after))).values =
        (create (program::(before ++ option key::value::after))).values ↔
      value.head? ≠ some '-' ∨ (create (program::after)).has key = true := by
  change scan _ (before ++ joined key value::after) = scan _ (before ++ option key::value::after) ↔
    _ ∨ (scan (fun _ => none) after key).isSome = true
  rw [scan_append rfl before after,scan_append rfl before (value::after),scan_joined plain]
  by_cases dash : value.head? = some '-'
  · have notOne : value ≠ ['1'] := by
      rintro rfl
      simp at dash
    rw [scan_option_dash plain dash single,scan_update_eq_iff notOne]
    simp [dash]
  · rw [scan_option plain dash]
    exact iff_of_true rfl (.inl dash)

theorem spellings_agree_batch : '=' ∉ ['n'] ∧ isOption ['8'] = false ∧
    (create [['x'],option ['q'],joined ['n'] ['8'],['-','y']]).values =
      (create [['x'],option ['q'],option ['n'],['8'],['-','y']]).values :=
  ⟨by decide,by decide,(spellings_agree_iff ['x'] [option ['q']] [['-','y']] ['n'] ['8'] (by decide)
    (by decide)).mpr (.inl (by decide))⟩

/-- `--cpu=-1` asks for no pinning, `--cpu -1` for processor 1. -/
theorem negative_value_lost :
    '=' ∉ ['c','p','u'] ∧ isOption ['-','1'] = false ∧
    (create [['x'],joined ['c','p','u'] ['-','1']]).integer ['c','p','u'] (-1) = -1 ∧
    (create [['x'],option ['c','p','u'],['-','1']]).integer ['c','p','u'] (-1) = 1 ∧
    (create [['x'],joined ['c','p','u'] ['-','1']]).values ≠
      (create [['x'],option ['c','p','u'],['-','1']]).values := by
  refine ⟨by decide,by decide,by decide +kernel,by decide +kernel,?_⟩
  intro same
  exact absurd (congrFun same ['c','p','u']) (by decide +kernel)

end Args
end Llte
