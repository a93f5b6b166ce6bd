import Scad.Parse.Statement

/-! The grammar of the language, said without reading: which tokens a phrase is made of and which
tree it stands for. Whatever nests is a phrase one level further in, so a grammar of `n` levels
derives exactly the phrases that never have more than `n` levels open. -/
namespace Scad

def Verb.keyword : Verb → Keyword
  | .echo => .echo
  | .assert => .assert

def Inclusion.keyword : Inclusion → Keyword
  | .everything => .includeFile
  | .definitions => .useFile

namespace Grammar

/-- The tokens ahead, what a phrase at their head stands for, and the tokens behind it. -/
abbrev Phrase (α : Type) := List Token → α → List Token → Prop

def nextKind (ts : List Token) : TokenKind := (ts.head?.map (·.kind)).getD .eof

/-- The phrases one level further in. -/
structure Level where
  expression : Phrase Node
  /-- The operand of a sign or of a power. -/
  unary : Phrase Node
  /-- A vector element inside of another. -/
  element : Phrase Node
  /-- What stands between the braces of a block. -/
  statements : Phrase (List Node)
  /-- An instantiation as the child of another. -/
  instantiation : Phrase Node
  /-- What may stand behind an `if` that has no `else`. -/
  ifEnd : List Token → Prop

inductive Repeated {α : Type} (item : Phrase α) : Phrase (List α)
  | nil {ts} : Repeated item ts [] ts
  | cons {ts a mid as rest} : item ts a mid → Repeated item mid as rest →
      Repeated item ts (a :: as) rest

inductive Commas : List Token → List Token → Prop
  | one {t ts} : t.kind = .symbol .comma → Commas (t :: ts) ts
  | more {t ts rest} : t.kind = .symbol .comma → Commas ts rest → Commas (t :: ts) rest

/-- Items with runs of commas between them. A run behind the last item is allowed, one without
any item is not. -/
inductive Listed (item : Phrase Node) : Phrase (List Node)
  | none {ts} : Listed item ts [] ts
  | one {ts a rest} : item ts a rest → Listed item ts [a] rest
  | more {ts a mid next as rest} : item ts a mid → Commas mid next → Listed item next as rest →
      Listed item ts (a :: as) rest

inductive After {α : Type} (k : TokenKind) (inner : Phrase α) : Phrase α
  | mk {t ts a rest} : t.kind = k → inner ts a rest → After k inner (t :: ts) a rest

inductive Between {α : Type} (left right : Symbol) (inner : Phrase α) : Phrase α
  | mk {l ts a r rest} : l.kind = .symbol left → inner ts a (r :: rest) → r.kind = .symbol right →
      Between left right inner (l :: ts) a rest

section Expressions

variable (inner : Level)

def Value : Phrase Node := After (.symbol .assign) inner.expression

/-- Where arguments declare variables, a named one is a declaration. -/
def argumentLabel (declares : Bool) (name : String) : Form Node :=
  if declares then .variableDefinition name else .argumentName name

inductive Argument (declares : Bool) : Phrase Node
  | named {name ts e rest i j} : name.kind = .identifier → Value inner ts e rest →
      Argument declares (name :: ts)
        ⟨i, .argument (some ⟨j, argumentLabel declares name.text⟩) e⟩ rest
  | unnamed {ts e rest i} : inner.expression ts e rest →
      Argument declares ts ⟨i, .argument none e⟩ rest

def Arguments (declares : Bool) : Phrase (List Node) :=
  Between .leftParen .rightParen (Listed (Argument inner declares))

inductive Parameter : Phrase Node
  | required {name ts i} : name.kind = .identifier →
      Parameter (name :: ts) ⟨i, .parameter name.text none⟩ ts
  | optional {name ts e rest i} : name.kind = .identifier → Value inner ts e rest →
      Parameter (name :: ts) ⟨i, .parameter name.text (some e)⟩ rest

def Parameters : Phrase (List Node) :=
  Between .leftParen .rightParen (Listed (Parameter inner))

inductive Assignment : Phrase Node
  | mk {name ts e rest i j} : name.kind = .identifier → Value inner ts e rest →
      Assignment (name :: ts) ⟨i, .assignment ⟨j, .variableDefinition name.text⟩ e⟩ rest

inductive Update : Phrase Node
  | mk {name ts e rest i j} : name.kind = .identifier → Value inner ts e rest →
      Update (name :: ts) ⟨i, .loopUpdate ⟨j, .variableRef name.text⟩ e⟩ rest

inductive LoopHead : Phrase (List Node × Option Node × List Node)
  | plain {ts as rest} : Listed (Assignment inner) ts as rest → LoopHead ts (as, none, []) rest
  | counted {ts as mid c s next us rest} : Listed (Assignment inner) ts as mid →
      After (.symbol .semicolon) inner.expression mid c (s :: next) →
      s.kind = .symbol .semicolon → Listed (Update inner) next us rest →
      LoopHead ts (as, some c, us) rest

def Condition : Phrase Node := Between .leftParen .rightParen inner.expression

inductive Element : Phrase Node
  | loop {k ts as c us mid b rest i} : k.kind = .keyword .forLoop →
      Between .leftParen .rightParen (LoopHead inner) ts (as, c, us) mid →
      inner.element mid b rest → Element (k :: ts) ⟨i, .forElement as c us b⟩ rest
  | each {k ts b rest i} : k.kind = .keyword .each → inner.element ts b rest →
      Element (k :: ts) ⟨i, .each b⟩ rest
  | ifThen {k ts c mid t rest i} : k.kind = .keyword .ifThen → Condition inner ts c mid →
      inner.element mid t rest → inner.ifEnd rest →
      Element (k :: ts) ⟨i, .ifElement c t none⟩ rest
  | ifElse {k ts c mid t next e rest i} : k.kind = .keyword .ifThen → Condition inner ts c mid →
      inner.element mid t next → After (.keyword .otherwise) inner.element next e rest →
      Element (k :: ts) ⟨i, .ifElement c t (some e)⟩ rest
  | letIn {k ts as mid b rest i} : k.kind = .keyword .letIn →
      Between .leftParen .rightParen (Listed (Assignment inner)) ts as mid →
      inner.element mid b rest → Element (k :: ts) ⟨i, .letIn as b⟩ rest
  | group {l g ts x rest} : Between .leftParen .rightParen inner.element (l :: g :: ts) x rest →
      Parse.startsGenerator g.kind → Element (l :: g :: ts) x rest
  | plain {ts x rest} : inner.expression ts x rest → nextKind ts ≠ .keyword .letIn →
      Element ts x rest

inductive Range : Phrase (Node × Node × Option Node)
  | ends {ts a mid b rest} : Element inner ts a mid →
      After (.symbol .colon) inner.expression mid b rest → Range ts (a, b, none) rest
  | stepped {ts a mid s next b rest} : Element inner ts a mid →
      After (.symbol .colon) inner.expression mid s next →
      After (.symbol .colon) inner.expression next b rest → Range ts (a, b, some s) rest

/-- All elements generate values, or all are values. -/
def Uniform (es : List Node) : Prop := ∀ x ∈ es, ∀ y ∈ es, x.isGenerator = y.isGenerator

inductive Primary : Phrase Node
  | paren {ts e rest i} : Between .leftParen .rightParen inner.expression ts e rest →
      Primary ts ⟨i, .paren e⟩ rest
  | vector {ts es rest i} : Between .leftBracket .rightBracket (Listed (Element inner)) ts es rest →
      Uniform es → Primary ts ⟨i, .vector es⟩ rest
  | range {ts a b s rest i} :
      Between .leftBracket .rightBracket (Range inner) ts (a, b, s) rest →
      a.isGenerator = false → Primary ts ⟨i, .range a b s⟩ rest
  | true {k ts i} : k.kind = .keyword .true → Primary (k :: ts) ⟨i, .boolean true⟩ ts
  | false {k ts i} : k.kind = .keyword .false → Primary (k :: ts) ⟨i, .boolean false⟩ ts
  | undef {k ts i} : k.kind = .keyword .undef → Primary (k :: ts) ⟨i, .undefined⟩ ts
  | number {k ts x i} : k.kind = .number → Numeral.read k.text = .ok x →
      Primary (k :: ts) ⟨i, .number (.real x)⟩ ts
  | string {k ts i} : k.kind = .string → Primary (k :: ts) ⟨i, .string k.text⟩ ts
  | reference {k ts i} : k.kind = .identifier → Primary (k :: ts) ⟨i, .variableRef k.text⟩ ts

inductive Suffix : Phrase Node
  | call {ts as rest i} : Arguments inner false ts as rest → Suffix ts ⟨i, .callSuffix as⟩ rest
  | index {ts e rest i} : Between .leftBracket .rightBracket inner.expression ts e rest →
      Suffix ts ⟨i, .indexSuffix e⟩ rest
  | member {d m ts i} : d.kind = .symbol .dot → m.kind = .identifier →
      Suffix (d :: m :: ts) ⟨i, .memberSuffix m.text⟩ ts

inductive Suffixed : Phrase Node
  | plain {ts x rest} : Primary inner ts x rest → Suffixed ts x rest
  | call {ts x mid ss rest i} : Primary inner ts x mid → Repeated (Suffix inner) mid ss rest →
      ss ≠ [] → Suffixed ts ⟨i, .call x ss⟩ rest

inductive Power : Phrase Node
  | plain {ts x rest} : Suffixed inner ts x rest → Power ts x rest
  | raised {ts b mid e rest i} : Suffixed inner ts b mid →
      After (.symbol .caret) inner.unary mid e rest → Power ts ⟨i, .power b e⟩ rest

inductive Unary : Phrase Node
  | plain {ts x rest} : Power inner ts x rest → Unary ts x rest
  | sign {k ts e rest i} : Parse.isSign k.kind → inner.unary ts e rest →
      Unary (k :: ts) ⟨i, .unary k.text e⟩ rest

inductive Operation (level : ChainLevel) (operand : Phrase Node) : Phrase (String × Node)
  | mk {k ts x rest} : Parse.isOperator level k.kind → operand ts x rest →
      Operation level operand (k :: ts) (k.text, x) rest

inductive Chain (level : ChainLevel) (operand : Phrase Node) : Phrase Node
  | single {ts x rest} : operand ts x rest → Chain level operand ts x rest
  | several {ts x mid more rest i} : operand ts x mid →
      Repeated (Operation level operand) mid more rest → more ≠ [] →
      Chain level operand ts ⟨i, .chain level (x :: more.map (·.2)) (more.map (·.1))⟩ rest

/-- From the loosest operators to the tightest. -/
def Chains : Phrase Node :=
  Chain .disjunction <| Chain .conjunction <| Chain .equality <| Chain .comparison <|
    Chain .additive <| Chain .multiplicative <| Unary inner

inductive Ternary : Phrase Node
  | plain {ts x rest} : Chains inner ts x rest → Ternary ts x rest
  | choice {ts c mid t next e rest i} : Chains inner ts c mid →
      After (.symbol .question) inner.expression mid t next →
      After (.symbol .colon) inner.expression next e rest →
      Ternary ts ⟨i, .ternary c t e⟩ rest

inductive Expression : Phrase Node
  | letIn {k ts as mid b rest i} : k.kind = .keyword .letIn →
      Between .leftParen .rightParen (Listed (Assignment inner)) ts as mid →
      inner.expression mid b rest → Expression (k :: ts) ⟨i, .letIn as b⟩ rest
  | remark {verb k ts as rest i} : k.kind = .keyword (Verb.keyword verb) →
      Arguments inner false ts as rest → Expression (k :: ts) ⟨i, .remark verb as none⟩ rest
  | remarkOn {verb k ts as mid b rest i} : k.kind = .keyword (Verb.keyword verb) →
      Arguments inner false ts as mid → inner.expression mid b rest →
      Expression (k :: ts) ⟨i, .remark verb as (some b)⟩ rest
  | functionLiteral {k ts ps mid b rest i} : k.kind = .keyword .function →
      Parameters inner ts ps mid → inner.expression mid b rest →
      Expression (k :: ts) ⟨i, .functionLiteral ps b⟩ rest
  | ternary {ts x rest} : Ternary inner ts x rest → Expression ts x rest

end Expressions

section Statements

variable (inner : Level)

inductive Block : Phrase Node
  | mk {ts ss rest i} : Between .leftBrace .rightBrace inner.statements ts ss rest →
      Block ts ⟨i, .block ss⟩ rest

inductive Child : Phrase Node
  | empty {k ts i} : k.kind = .symbol .semicolon → Child (k :: ts) ⟨i, .empty⟩ ts
  | block {ts x rest} : Block inner ts x rest → Child ts x rest
  | instantiation {ts x rest} : inner.instantiation ts x rest → Child ts x rest

def namesModule : TokenKind → Bool
  | .identifier | .keyword .forLoop | .keyword .letIn | .keyword .each => true
  | _ => false

inductive Payload : Phrase Node
  | ifThen {k ts c mid t rest i} : k.kind = .keyword .ifThen → Condition inner ts c mid →
      Child inner mid t rest → inner.ifEnd rest → Payload (k :: ts) ⟨i, .moduleIf c t none⟩ rest
  | ifElse {k ts c mid t next e rest i} : k.kind = .keyword .ifThen → Condition inner ts c mid →
      Child inner mid t next → After (.keyword .otherwise) (Child inner) next e rest →
      Payload (k :: ts) ⟨i, .moduleIf c t (some e)⟩ rest
  | remark {verb k ts as mid c rest i} : k.kind = .keyword (Verb.keyword verb) →
      Arguments inner false ts as mid → Child inner mid c rest →
      Payload (k :: ts) ⟨i, .moduleRemark verb as c⟩ rest
  | call {k ts as mid c rest i h m} : namesModule k.kind →
      Arguments inner (Parse.declaresVariables k) ts as mid → Child inner mid c rest →
      Payload (k :: ts) ⟨i, .moduleCall ⟨h, .moduleHead ⟨m, .moduleName k.text⟩ as⟩ c⟩ rest

inductive Mark : Phrase String
  | mk {k mark ts} : Parse.modifier? k.kind = some mark → Mark (k :: ts) mark ts

inductive Instantiation : Phrase Node
  | mk {ts marks mid p rest i} : Repeated Mark ts marks mid → Payload inner mid p rest →
      Instantiation ts ⟨i, .instantiation (.ofList marks) p⟩ rest

/-- A statement. The body of a module definition opens no level. -/
inductive Statement : Phrase Node
  | empty {k ts i} : k.kind = .symbol .semicolon → Statement (k :: ts) ⟨i, .empty⟩ ts
  | block {ts x rest} : Block inner ts x rest → Statement ts x rest
  | file {inclusion k f ts i} : k.kind = .keyword (Inclusion.keyword inclusion) → f.kind = .file →
      Statement (k :: f :: ts) ⟨i, .fileReference inclusion f.text⟩ ts
  | assignment {name ts e s rest i j} : name.kind = .identifier → Value inner ts e (s :: rest) →
      s.kind = .symbol .semicolon →
      Statement (name :: ts) ⟨i, .assignment ⟨j, .variableDefinition name.text⟩ e⟩ rest
  | function {k name ts ps mid e s rest i} : k.kind = .keyword .function →
      name.kind = .identifier → Parameters inner ts ps mid → Value inner mid e (s :: rest) →
      s.kind = .symbol .semicolon →
      Statement (k :: name :: ts) ⟨i, .functionDefinition name.text ps e⟩ rest
  | module {k name ts ps mid b rest i} : k.kind = .keyword .moduleDef → name.kind = .identifier →
      Parameters inner ts ps mid → Statement mid b rest →
      Statement (k :: name :: ts) ⟨i, .moduleDefinition name.text ps b⟩ rest
  | instantiation {ts x rest} : Instantiation inner ts x rest → Statement ts x rest

end Statements

/-- The phrases when `n` more levels may be opened. -/
def level (ifEnd : List Token → Prop) : (n : Nat) → Level
  | 0 => ⟨fun _ _ _ => False, fun _ _ _ => False, fun _ _ _ => False, fun _ _ _ => False,
      fun _ _ _ => False, ifEnd⟩
  | n + 1 =>
    let inner := level ifEnd n
    ⟨Expression inner, Unary inner, Element inner, Repeated (Statement inner), Instantiation inner,
      ifEnd⟩

/-- A whole text with at most `n` levels open at once. -/
def Program (ifEnd : List Token → Prop) (n : Nat) (ts : List Token) (ss : List Node) : Prop :=
  Repeated (Statement (level ifEnd n)) ts ss []

/-- An `else` behind an `if` that could take it belongs to that `if`. -/
def NearestElse (rest : List Token) : Prop := nextKind rest ≠ .keyword .otherwise

end Grammar

end Scad
