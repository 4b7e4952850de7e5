import StackScript.Grammar.Expression
import StackScript.Proofs.Resolution.Lookup
import StackScript.Proofs.Resolution.Word
import StackScript.Proofs.Tree.Names

namespace StackScript

/-! The names in an expression that is read are those that its code names, each with the symbol that
it denotes. -/

open Source

variable {scope : Scope} {declared : List Declaration} {around : Nat} {portion : Portion}
variable {before text after : List Char} {names names' : List Occurrence}

namespace Source

variable {gap rest : List Char}

theorem Operators.preceded (operators : Operators before text) (blank : Blank gap) :
    Operators (gap ++ before) text := by
  have both {gap' : List Char} (blank' : Blank gap') : Blank (gap ++ gap') :=
    List.forall_mem_append.mpr ⟨blank, blank'⟩
  cases operators with
  | mark blank' member more =>
      rw [← List.append_assoc]
      exact .mark (both blank') member more
  | keyword blank' keyword =>
      rw [← List.append_assoc]
      exact .keyword (both blank') keyword

theorem Phrase.ended : Phrase scope declared .operator around text [] text :=
  @Phrase.done scope declared around [] text nofun

theorem Phrase.preceded (phrase : Phrase scope declared .place around before names after)
    (blank : Blank gap) : Phrase scope declared .place around (gap ++ before) names after := by
  cases phrase with
  | place blank' blank'' named indexes =>
      rw [← List.append_assoc]
      exact .place (List.forall_mem_append.mpr ⟨blank, blank'⟩) blank'' named indexes

/-- What ends with an operand goes on with what may stand behind an operand. -/
theorem Phrase.continued (phrase : Phrase scope declared portion around before names text)
    (part : portion = .operand ∨ portion = .operator)
    (more : ∀ gap, Blank gap → Phrase scope declared .operator around (gap ++ text) names' after) :
    Phrase scope declared portion around before (names ++ names') after := by
  induction phrase with
  | place | noIndexes | indexList | noArguments | someArguments => simp at part
  | signs tokens _ induction => exact .signs tokens (induction part more)
  | constant token _ induction => exact .constant token (induction (.inr rfl) more)
  | group grouped _ _ induction =>
      rw [List.append_assoc]
      exact .group grouped (induction (.inr rfl) more)
  | read place _ _ induction =>
      rw [List.append_assoc]
      exact .read place (induction (.inr rfl) more)
  | call blank named arguments _ _ induction =>
      rw [List.append_assoc, List.cons_append]
      exact .call blank named arguments (induction (.inr rfl) more)
  | operators tokens _ induction => exact .operators tokens (induction (.inl rfl) more)
  | done blank => exact more _ blank

theorem Phrase.joined (first : Phrase scope declared .operand around before names text)
    (operators : Operators text rest)
    (second : Phrase scope declared .operand around rest names' after) :
    Phrase scope declared .operand around before (names ++ names') after :=
  first.continued (.inl rfl) fun _ blank => .operators (operators.preceded blank) second

theorem Phrase.followed (phrase : Phrase scope declared .operand around before names (gap ++ after))
    (blank : Blank gap) : Phrase scope declared .operand around before names after := by
  have whole : Phrase scope declared .operand around before (names ++ []) after :=
    phrase.continued (.inl rfl) fun gap' blank' => by
      rw [← List.append_assoc]
      exact .done (List.forall_mem_append.mpr ⟨blank', blank⟩)
  rwa [List.append_nil] at whole

end Source

/-- A part of an expression whose names denote the symbols. -/
def Spoken (r : Registry) (scope : Scope) (portion : Portion) (around : Nat) (before : List Char)
    (symbols : List Nat) (after : List Char) : Prop :=
  ∃ names, Phrase scope r.declarations portion around before names after ∧
    List.Forall₂ Occurrence.Denotes names symbols

namespace Spoken

variable {r : Registry} {symbols symbols' : List Nat} {gap rest : List Char}

theorem constant (token : Constant before after) :
    Spoken r scope .operand around before [] after :=
  ⟨[], .constant token (.ended), .nil⟩

theorem read (place : Spoken r scope .place around before symbols after) :
    Spoken r scope .operand around before symbols after := by
  obtain ⟨names, phrase, denote⟩ := place
  rw [← List.append_nil names] at denote
  exact ⟨names ++ [], .read phrase (.ended), denote⟩

theorem group (inside : Spoken r scope .operand around text symbols (')' :: after)) :
    Spoken r scope .operand around ('(' :: text) symbols after := by
  obtain ⟨names, phrase, denote⟩ := inside
  rw [← List.append_nil names] at denote
  exact ⟨names ++ [], .group phrase (.ended), denote⟩

theorem signed (spoken : Spoken r scope .operand around text symbols after)
    (tokens : Signs before text) : Spoken r scope .operand around before symbols after := by
  obtain ⟨names, phrase, denote⟩ := spoken
  exact ⟨names, .signs tokens phrase, denote⟩

theorem joined (first : Spoken r scope .operand around before symbols text)
    (operators : Operators text rest)
    (second : Spoken r scope .operand around rest symbols' after) :
    Spoken r scope .operand around before (symbols ++ symbols') after := by
  obtain ⟨names, phrase, denote⟩ := first
  obtain ⟨names', phrase', denote'⟩ := second
  exact ⟨names ++ names', phrase.joined operators phrase', List.rel_append denote denote'⟩

theorem followed (spoken : Spoken r scope .operand around before symbols (gap ++ after))
    (blank : Blank gap) : Spoken r scope .operand around before symbols after := by
  obtain ⟨names, phrase, denote⟩ := spoken
  exact ⟨names, phrase.followed blank, denote⟩

end Spoken

namespace Grammar

theorem reduceBy_add (scope : Scope) (first second : Nat) :
    reduceBy scope (first + second) = reduceBy (reduceBy scope first) second := by
  induction first generalizing scope with
  | zero => rw [Nat.zero_add, reduceBy]
  | succ first induction => rw [Nat.succ_add, reduceBy, induction, reduceBy]

variable {r : Registry} {ω : Type}

/-- From any text the rule reads an expression in a scope, around which there are so many dots. -/
def Speaks (r : Registry) (scope : Scope) (around : Nat) (rule : Rule Typed) : Prop :=
  ∀ text, Scans r text rule
    (fun typed rest => Spoken r scope .operand around text typed.expr.symbols rest)
    (Rejection.Restores r text)

structure Nested.Speaks (r : Registry) (nested : Nested) : Prop where
  conditional : ∀ scope around,
    Grammar.Speaks r scope around (nested.conditional (reduceBy scope around))
  unary : ∀ scope around, Grammar.Speaks r scope around (nested.unary (reduceBy scope around))

section Chain

variable {operand : Rule Typed} {operator : Cursor → Option (ω × Cursor)}
variable {combine : ω → Typed → Typed → Except Cause Typed} {cause : Cause}

theorem chainLoop_speaks (speaks : Speaks r scope around operand)
    (tokens : ∀ c op c', operator c = some (op, c') → Operators c.rest c'.rest)
    (joins : ∀ op lhs rhs result, combine op lhs rhs = .ok result →
      result.expr.symbols = lhs.expr.symbols ++ rhs.expr.symbols) (fuel : Nat) {lhs : Typed}
    (spoken : Spoken r scope .operand around before lhs.expr.symbols text) :
    Scans r text (chainLoop operand operator combine cause fuel lhs)
      (fun typed rest => Spoken r scope .operand around before typed.expr.symbols rest)
      (Failure.Keeps r) := by
  induction fuel generalizing text lhs with
  | zero => exact .pure ⟨rfl, spoken⟩
  | succ fuel induction =>
      refine .after_one (fun c op c' same found => ?_) (.pure ⟨rfl, spoken⟩)
      refine .scan (.orFail (speaks _)) fun rhs rest spoken' => ?_
      split
      · rename_i result combined
        have both := spoken.joined (same ▸ tokens c op c' found) spoken'
        rw [← joins op lhs rhs result combined] at both
        exact induction both
      · exact .fail

theorem chain_speaks (speaks : Speaks r scope around operand)
    (tokens : ∀ c op c', operator c = some (op, c') → Operators c.rest c'.rest)
    (joins : ∀ op lhs rhs result, combine op lhs rhs = .ok result →
      result.expr.symbols = lhs.expr.symbols ++ rhs.expr.symbols) :
    Speaks r scope around (chain operand operator combine cause) := by
  intro text
  exact .close (.scan (.orPass (speaks text)) fun first rest spoken =>
    .after_remaining (chainLoop_speaks speaks tokens joins _ spoken))

end Chain

theorem mem_of_lookup {signs : List (Char × ω)} {char : Char} {op : ω}
    (known : signs.lookup char = some op) : (char, op) ∈ signs := by
  induction signs with
  | nil => cases known
  | cons sign signs induction =>
      rw [List.lookup_cons] at known
      by_cases same : char = sign.1
      · subst same
        rw [beq_self_eq_true] at known
        cases known
        exact List.mem_cons_self
      · rw [beq_false_of_ne same] at known
        exact List.mem_cons_of_mem sign (induction known)

theorem signOperator_operators {signs : List (Char × ω)} {c c' : Cursor} {op : ω}
    (marks : ∀ sign ∈ signs, sign.1 ∈ operatorMarks)
    (found : signOperator signs c = some (op, c')) : Operators c.rest c'.rest := by
  obtain ⟨gap, blank, whole⟩ := exists_gap c.rest
  simp only [signOperator, Cursor.rest_skipSpace] at found
  split at found
  · cases found
  · rename_i char rest ahead
    split at found
    · rename_i op' known
      split at found
      · cases found
      · cases found
        rw [Cursor.rest_advance, Cursor.rest_skipSpace, ahead, List.tail_cons, whole, ahead]
        exact .mark blank (marks _ (mem_of_lookup known)) .refl
    · cases found

theorem wordOperator_operators {word : String} {c c' : Cursor} {op : Unit}
    (member : word ∈ ["and", "or"]) (found : wordOperator word c = some (op, c')) :
    Operators c.rest c'.rest := by
  obtain ⟨c'', read, same⟩ := Option.map_eq_some_iff.mp found
  cases same
  obtain ⟨gap, front, blank, whole, spelled, ends⟩ := keyword?_eq read
  rw [whole]
  exact .keyword blank (keyword_of_word spelled member ends)

theorem firstOf?_operators {α : Type} {words : List (List Char × α)} {c c' : Cursor} {a : α}
    (marks : ∀ entry ∈ words, entry.1 ≠ [] ∧ entry.1.all operatorMarks.contains = true)
    (found : c.firstOf? Cursor.operator? words = some (a, c')) : Operators c.rest c'.rest := by
  obtain ⟨word, member, read⟩ := firstOf?_eq found
  obtain ⟨gap, blank, whole⟩ := operator?_eq read
  rw [whole]
  obtain ⟨nonempty, known⟩ := marks _ member
  have all := fun char inside => List.contains_iff_mem.mp (List.all_eq_true.mp known char inside)
  obtain ⟨char, word, rfl⟩ := List.exists_cons_of_ne_nil nonempty
  obtain ⟨first, others⟩ := List.forall_mem_cons.mp all
  refine .mark blank first ?_
  clear member read whole nonempty known all first
  induction word with
  | nil => exact .refl
  | cons char word induction =>
      obtain ⟨first, others⟩ := List.forall_mem_cons.mp others
      exact .head (.mark first) (induction others)

theorem combineLogical_symbols {operation : Arithmetic} {op : Unit} {lhs rhs result : Typed}
    (combined : combineLogical operation op lhs rhs = .ok result) :
    result.expr.symbols = lhs.expr.symbols ++ rhs.expr.symbols := by
  simp only [combineLogical] at combined
  split at combined
  · cases combined
    rfl
  · cases combined

theorem combineAdditive_symbols {operation : Arithmetic} {lhs rhs result : Typed}
    (combined : combineAdditive operation lhs rhs = .ok result) :
    result.expr.symbols = lhs.expr.symbols ++ rhs.expr.symbols := by
  simp only [combineAdditive] at combined
  split at combined
  · cases combined
    rfl
  · split at combined
    · cases combined
      rfl
    · cases combined

theorem combineMultiplicative_symbols {operation : Arithmetic} {lhs rhs result : Typed}
    (combined : combineMultiplicative operation lhs rhs = .ok result) :
    result.expr.symbols = lhs.expr.symbols ++ rhs.expr.symbols := by
  simp only [combineMultiplicative] at combined
  split at combined
  · cases combined
    rfl
  · cases combined

/-! Names. -/

/-- What is read at a place that is assigned to, and what elsewhere. -/
def Side.reads : Side → Portion
  | .left => .place
  | .right => .operand

theorem Side.spoken {symbols : List Nat} (side : Side)
    (place : Spoken r scope .place around before symbols after) :
    Spoken r scope side.reads around before symbols after := by
  cases side with
  | left => exact place
  | right => exact place.read

section Operand

variable {conditional : Rule Typed} (speaks : Speaks r scope around conditional)

include speaks

theorem argumentsLoop_speaks (fuel : Nat) :
    Scans r text (argumentsLoop conditional fuel)
      (fun args rest => Spoken r scope .operand around text
        (Expr.symbolsOf (args.map Typed.expr)) rest) (Failure.Keeps r) := by
  induction fuel generalizing text with
  | zero => exact .fail
  | succ fuel induction =>
      refine .scan (.orFail (speaks text)) fun first rest spoken => ?_
      refine .symbol (fun gap rest' blank whole => ?_) (.pure ⟨rfl, ?_⟩)
      · refine .scan induction fun others rest'' spoken' => .pure ⟨rfl, ?_⟩
        exact spoken.joined (whole ▸ .mark blank (by decide) .refl) spoken'
      · have one : Expr.symbolsOf ([first].map Typed.expr) = first.expr.symbols := List.append_nil _
        rw [← one] at spoken
        exact spoken

theorem arguments_speaks (text : List Char) :
    Scans r text (arguments conditional)
      (fun args rest => Spoken r scope .operand around text
        (Expr.symbolsOf (args.map Typed.expr)) rest) (Rejection.Restores r text) :=
  .close (.after_remaining (argumentsLoop_speaks speaks _))

theorem indexLoop_speaks (fuel : Nat) (array : Typed) :
    Scans r text (indexLoop conditional fuel array)
      (fun typed rest => ∃ more, typed.expr.symbols = array.expr.symbols ++ more ∧
        Spoken r scope .indexLists around text more rest) (Failure.Keeps r) := by
  induction fuel generalizing text array with
  | zero => exact .pure ⟨rfl, [], (List.append_nil _).symm, [], .noIndexes, .nil⟩
  | succ fuel induction =>
      refine .after_cursor fun c same => .ite (fun opens => ?_) fun _ =>
        .pure ⟨rfl, [], (List.append_nil _).symm, [], .noIndexes, .nil⟩
      rw [Cursor.isAt, Cursor.peek?, same, decide_eq_true_eq, List.head?_eq_some_iff] at opens
      obtain ⟨inner, rfl⟩ := opens
      have inside : c.advance.rest = inner := by rw [Cursor.rest_advance, same, List.tail_cons]
      refine .after_move (.attempt (arguments_speaks speaks _) ?_ (fun _ => .fail)
        fun _ => .throw fun _ _ broken => Signal.noConfusion broken)
      rintro indexes _ rest ⟨rfl, spoken⟩
      refine .symbol (fun gap behind blank whole => ?_) .fail
      split
      · rename_i ty element
        refine .mono (induction _) ?_
        rintro typed r' rest' ⟨same', more, symbols, names, phrase, denote⟩
        rw [inside, whole] at spoken
        obtain ⟨own, list, denotes⟩ := spoken.followed blank
        refine ⟨same', Expr.symbolsOf (indexes.map Typed.expr) ++ more, ?_, own ++ names,
          .indexList list phrase, List.rel_append denotes denote⟩
        rw [symbols, Expr.symbols, List.append_assoc]
      · exact .fail

theorem callArguments_speaks (params : List Ty) :
    Scans r text (callArguments conditional params)
      (fun args rest => ∃ behind, text = '(' :: behind ∧
        Spoken r scope .arguments around behind (Expr.symbolsOf (args.map Typed.expr))
          (')' :: rest)) (Failure.Keeps r) := by
  refine .after_cursor fun c same => .ite (fun opens => ?_) fun _ => .fail
  rw [Cursor.isAt, Cursor.peek?, same, decide_eq_true_eq, List.head?_eq_some_iff] at opens
  obtain ⟨behind, rfl⟩ := opens
  have inside : c.advance.rest = behind := by rw [Cursor.rest_advance, same, List.tail_cons]
  refine .after_move ?_
  rw [inside]
  have listed : Scans r behind
      (do
        let args ← (arguments conditional).orFail .argumentList
        if ← acceptSymbol ')' then Pure.pure args else Body.fail .argumentList [])
      (fun args rest => ∃ behind', '(' :: behind = '(' :: behind' ∧
        Spoken r scope .arguments around behind' (Expr.symbolsOf (args.map Typed.expr))
          (')' :: rest)) (Failure.Keeps r) := by
    refine .scan (.orFail (arguments_speaks speaks behind)) fun args rest spoken => ?_
    refine .symbol (fun gap rest' blank whole => .pure ⟨rfl, behind, rfl, ?_⟩) .fail
    subst whole
    obtain ⟨names, phrase, denote⟩ := spoken.followed blank
    exact ⟨names, .someArguments phrase, denote⟩
  by_cases none : params.isEmpty = true
  · rw [if_pos none]
    refine .symbol (fun gap rest blank whole => .pure ⟨rfl, behind, rfl, ?_⟩) listed
    subst whole
    exact ⟨[], .noArguments blank, .nil⟩
  · rw [if_neg none, pure_bind, if_neg Bool.false_ne_true]
    exact listed

/-- A name in front of which all dots are read, with its index lists or its arguments. -/
theorem primary_speaks (distinct : r.declarations.Nodup) {dots outside : Nat}
    (total : around = dots + outside) (side : Side) (text : List Char) :
    Scans r text (primary conditional side (reduceBy scope around))
      (fun typed rest => Spoken r scope side.reads outside (List.replicate dots '.' ++ text)
        typed.expr.symbols rest) (Rejection.Restores r text) := by
  subst total
  refine .close (.scan (.orPass (identifier_takes _ .inherited)) ?_)
  rintro _ rest ⟨gap, word, blank, named, rfl, rfl⟩
  refine .after_registry ?_
  split
  · rename_i index symbol here found
    have denotes : Occurrence.Denotes
        { scope, dots, around := outside, word := String.ofList word,
          declared := r.declarations } index :=
      Registry.find?_innermost distinct here
    have nothing : Blank [] := nofun
    refine .ite (fun isFunction => .ite (fun left => .pure ⟨rfl, ?_⟩) fun right => ?_)
      fun variable' => .after_remaining ?_
    · rw [left]
      exact ⟨_, .place nothing blank named .noIndexes, .cons denotes .nil⟩
    · refine .scan (callArguments_speaks speaks symbol.params) ?_
      rintro args rest' ⟨behind, rfl, names, phrase, denote⟩
      refine .ite (fun callable => .pure ⟨rfl, ?_⟩) fun _ => .fail
      cases side with
      | left => exact absurd rfl right
      | right =>
          exact ⟨_, .call blank named phrase .ended,
            List.rel_append denote (.cons denotes .nil)⟩
    · refine .mono (indexLoop_speaks speaks _ _) ?_
      rintro typed r' rest' ⟨same, more, symbols, names, phrase, denote⟩
      have place : Spoken r scope .place outside _ (index :: more) rest' :=
        ⟨_, .place nothing blank named phrase, .cons denotes denote⟩
      change typed.expr.symbols = index :: more at symbols
      rw [← symbols] at place
      exact ⟨same, side.spoken place⟩
  · exact .fail

end Operand

section Levels

variable {nested : Nested} (deeper : nested.Speaks r) (distinct : r.declarations.Nodup)

include deeper distinct

theorem dotted_speaks (side : Side) (tried : List Diagnostic) (text : List Char) :
    Scans r text (dotted nested side (reduceBy scope around) tried)
      (fun typed rest => Spoken r scope side.reads around text typed.expr.symbols rest)
      (Failure.Keeps r) := by
  refine .after_cursor fun c same => .after_move ?_
  have ahead : text = List.replicate (c.wordOf (· = '.')).length '.' ++
      (c.skipWhile (· = '.')).rest := by
    have dots : c.wordOf (· = '.') = List.replicate (c.wordOf (· = '.')).length '.' := by
      apply List.eq_replicate_of_mem
      intro char member
      exact of_decide_eq_true (List.all_eq_true.mp List.all_takeWhile char member)
    rw [← dots, Cursor.rest_skipWhile, same, Cursor.wordOf, same,
      List.takeWhile_append_dropWhile]
  generalize (c.wordOf (· = '.')).length = dots at ahead
  generalize (c.skipWhile (· = '.')).rest = mid at ahead
  subst ahead
  rw [← reduceBy_add, Nat.add_comm around dots]
  refine .attempt (primary_speaks (deeper.conditional scope (dots + around)) distinct rfl side mid)
    ?_ (fun nodes => ?_) fun nodes => ?_
  · rintro typed _ rest ⟨rfl, spoken⟩
    exact .after_cursor fun c' _ => .ite (fun _ => .fail) fun _ => .pure ⟨rfl, spoken⟩
  · exact .throw fun _ start _ => start.registry_eq
  · refine .throw fun _ _ broken => ?_
    simp only [ite_self] at broken
    cases broken

theorem parenthesized_speaks (tried : List Diagnostic) (text : List Char) :
    Scans r text (parenthesized nested (reduceBy scope around) tried)
      (fun typed rest => Spoken r scope .operand around ('(' :: text) typed.expr.symbols rest)
      (Failure.Keeps r) := by
  refine .attempt (deeper.conditional scope around text) ?_ (fun _ => .fail)
    fun _ => .throw fun _ _ broken => nomatch broken
  rintro typed _ rest ⟨rfl, spoken⟩
  refine .symbol (fun gap rest' blank whole => .pure ⟨rfl, ?_⟩) .fail
  subst whole
  exact (spoken.followed blank).group

theorem target_speaks (text : List Char) :
    Scans r text (target nested (reduceBy scope around))
      (fun typed rest => Spoken r scope .place around text typed.expr.symbols rest)
      (Rejection.Restores r text) := by
  refine .close (.after_skip fun gap rest blank whole => ?_)
  refine .mono (dotted_speaks deeper distinct .left [] rest) ?_
  rintro typed r' rest' ⟨same, names, phrase, denote⟩
  exact ⟨same, names, whole ▸ phrase.preceded blank, denote⟩

theorem operand_speaks : Speaks r scope around (operand nested (reduceBy scope around)) := by
  intro text
  refine .close (.after_skip fun gap mid blank whole => ?_)
  have gap : Signs text mid := whole ▸ tokens_of_blank blank
  refine .attempt (literal_takes) ?_ (fun nodes => ?_) fun nodes => ?_
  · rintro l _ rest ⟨rfl, gap', mid', blank', whole', constant⟩
    have signs : Signs text mid' := gap.trans (whole' ▸ tokens_of_blank blank')
    exact .pure ⟨rfl, (Spoken.constant constant).signed signs⟩
  · refine .ite (fun broken => nomatch broken) fun _ => ?_
    refine .symbol (fun gap' rest blank' whole' => ?_) ?_
    · refine .mono (parenthesized_speaks deeper distinct nodes rest) ?_
      rintro typed r' rest' ⟨same, spoken⟩
      exact ⟨same, spoken.signed (gap.trans (whole' ▸ tokens_of_blank blank'))⟩
    · refine .mono (dotted_speaks deeper distinct .right nodes mid) ?_
      rintro typed r' rest' ⟨same, spoken⟩
      exact ⟨same, spoken.signed gap⟩
  · change Meets _ (Body.fail .postfixExpression nodes) _ _
    exact Meets.throw fun _ _ broken => nomatch broken

theorem unary_speaks : Speaks r scope around (unary nested (reduceBy scope around)) := by
  intro text
  refine .close (.symbol (fun gap rest blank whole => ?_) (.keyword ?_ ?_))
  · refine .scan (.orFail (deeper.unary scope around rest)) fun e rest' spoken => ?_
    refine .ite (fun numeric => .pure ⟨rfl, ?_⟩) fun _ => .fail
    exact spoken.signed (whole ▸ tokens_of_mark blank (by decide))
  · intro gap front rest blank whole spelled ends
    refine .scan (.orFail (deeper.unary scope around rest)) fun e rest' spoken => ?_
    refine .ite (fun truth => .pure ⟨rfl, ?_⟩) fun _ => .fail
    exact spoken.signed (whole ▸ tokens_of_word blank spelled (by decide) ends)
  · exact .orPass (operand_speaks deeper distinct text)

theorem multiplicative_speaks :
    Speaks r scope around (multiplicative nested (reduceBy scope around)) := by
  exact chain_speaks (unary_speaks deeper distinct)
    (fun _ _ _ => signOperator_operators (by decide)) fun _ _ _ _ => combineMultiplicative_symbols

theorem additive_speaks : Speaks r scope around (additive nested (reduceBy scope around)) := by
  exact chain_speaks (multiplicative_speaks deeper distinct)
    (fun _ _ _ => signOperator_operators (by decide)) fun _ _ _ _ => combineAdditive_symbols

theorem relational_speaks : Speaks r scope around (relational nested (reduceBy scope around)) := by
  intro text
  refine .close (.scan (.orPass (additive_speaks deeper distinct text)) fun lhs rest spokenL => ?_)
  refine .after_one (fun c relation c' same found => ?_) (.pure ⟨rfl, spokenL⟩)
  have operators := firstOf?_operators (by decide) found
  rw [same] at operators
  refine .scan (.orFail (additive_speaks deeper distinct _)) fun rhs rest' spokenR => ?_
  exact .ite (fun consistent => .pure ⟨rfl, spokenL.joined operators spokenR⟩)
    fun _ => .fail

theorem logicalAnd_speaks : Speaks r scope around (logicalAnd nested (reduceBy scope around)) :=
  chain_speaks (relational_speaks deeper distinct)
    (fun _ _ _ => wordOperator_operators (by decide)) fun _ _ _ _ => combineLogical_symbols

theorem logicalOr_speaks : Speaks r scope around (logicalOr nested (reduceBy scope around)) :=
  chain_speaks (logicalAnd_speaks deeper distinct)
    (fun _ _ _ => wordOperator_operators (by decide)) fun _ _ _ _ => combineLogical_symbols

theorem conditionalExpression_speaks :
    Speaks r scope around (conditionalExpression nested (reduceBy scope around)) := by
  intro text
  refine .close (.scan (.orPass (logicalOr_speaks deeper distinct text))
    fun condition rest spokenC => ?_)
  refine .symbol (fun gap rest blank whole => .ite (fun truth => ?_) fun _ => .fail)
    (.pure ⟨rfl, spokenC⟩)
  have asks := whole ▸ Operators.mark blank (by decide) .refl
  refine .scan (.orFail (deeper.conditional scope around _)) fun accepted rest spokenT => ?_
  refine .symbol (fun gap rest blank whole => ?_) (.after_cursor fun _ _ => .fail)
  have otherwise := whole ▸ Operators.mark blank (by decide) .refl
  refine .scan (.orFail (deeper.conditional scope around _)) fun refused rest spokenF => ?_
  have chosen := (spokenC.joined asks spokenT).joined otherwise spokenF
  exact .ite (fun consistent => .pure ⟨rfl, chosen⟩) fun _ => .fail

end Levels

theorem nestedWithin_speaks (distinct : r.declarations.Nodup) (levels : Nat) :
    (nestedWithin levels).Speaks r := by
  induction levels with
  | zero => exact ⟨fun _ _ _ => .tooDeep, fun _ _ _ => .tooDeep⟩
  | succ levels induction =>
      exact ⟨fun _ _ => conditionalExpression_speaks induction distinct,
        fun _ _ => unary_speaks induction distinct⟩

end Grammar

end StackScript
