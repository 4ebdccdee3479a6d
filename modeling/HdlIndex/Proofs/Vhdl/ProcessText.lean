import HdlIndex.Symbols.HdlProcess
import HdlIndex.Vhdl.Symbol

/-! The written form of processes and of generate statements. Statements are nested, but what a walk
has to know of a statement never reaches beyond a semicolon or a header: a statement list is written
in fragments that follow each other, and at the start of each one the walk is where it was at the
start of the first. Generate statements put their processes under conditions. -/
namespace HdlIndex.Vhdl

/-- A name that can be declared. -/
def isIdentifier (text : String) : Bool := isNameLike text && (Keyword.ofText? text).isNone

/-- Words that no expression holds: they end statements and headers, or quote what follows. -/
def barredWords : List String :=
  [";", ":", ":=", "=>", "then", "else", "begin", "loop", "is", "end", "'", "\"", "--", "/*"]

/-- The words are an expression in which parentheses match, with `depth` of them open in front.
Outside of parentheses `<=` needs to be `allowed`. -/
def isExpression (allowed : Bool) : (depth : Nat) → List String → Bool
  | depth, [] => depth == 0
  | depth, word :: words =>
    if word = "(" then isExpression allowed (depth + 1) words
    else if word = ")" then depth != 0 && isExpression allowed (depth - 1) words
    else ! barredWords.contains word && (allowed || depth != 0 || word != "<=") &&
      isExpression allowed depth words

/-- The two kinds of assignment. -/
inductive Assignment where
  | signal
  | variable
deriving DecidableEq, Repr

namespace Assignment

/-- The symbol of an assignment. -/
def symbol : Assignment → String
  | signal => "<="
  | «variable» => ":="

/-- The role of what is assigned. -/
def role : Assignment → Role
  | signal => .target
  | «variable» => .variableTarget

end Assignment

/-- What an assignment assigns: a name, and what selects a part of it. -/
structure Target where
  name : String
  part : List String := []

/-- A sequential statement before it is written. Conditions, choices and the like are given in their
words. -/
inductive SequentialStatement where
  | assign (kind : Assignment) (target : Target) (value : List String)
  | null
  | if (condition : List String) (body : List SequentialStatement)
      (alternatives : List (List String × List SequentialStatement))
      (otherwise : Option (List SequentialStatement))
  | case (selector : List String) (choices : List (List String × List SequentialStatement))
  | for (index : String) (range : List String) (body : List SequentialStatement)
  | while (condition : List String) (body : List SequentialStatement)

/-- What begins a part of a statement. -/
inductive Header where
  | if
  | elsif
  | case
  | when
  | for
  | while
deriving DecidableEq, Repr

namespace Header

/-- The first word of a header. -/
def opener : Header → Keyword
  | «if» => .if
  | elsif => .elsif
  | case => .case
  | when => .when
  | «for» => .for
  | «while» => .while

/-- The last word of a header. -/
def closer : Header → String
  | «if» | elsif => "then"
  | case => "is"
  | when => "=>"
  | «for» | «while» => "loop"

end Header

/-- The statements that have an `end`. -/
inductive Compound where
  | if
  | case
  | loop
deriving DecidableEq, Repr

/-- The word behind the `end` of a statement. -/
def Compound.keyword : Compound → Keyword
  | «if» => .if
  | case => .case
  | loop => .loop

/-- A part of a statement that holds no statement itself. -/
inductive Fragment where
  | assign (kind : Assignment) (target : Target) (value : List String)
  | null
  | header (kind : Header) (expression : List String)
  | else
  | end (compound : Compound)

namespace Fragment

/-- The words of a fragment. -/
def words : Fragment → List String
  | assign kind target value => target.name :: (target.part ++ kind.symbol :: (value ++ [";"]))
  | null => ["null", ";"]
  | header kind expression => kind.opener.text :: (expression ++ [kind.closer])
  | «else» => ["else"]
  | «end» compound => ["end", compound.keyword.text, ";"]

/-- The fragment can be written. -/
def isWellFormed : Fragment → Bool
  | assign _ target value =>
    isIdentifier target.name && isExpression false 0 target.part && isExpression false 0 value
  | header _ expression => isExpression true 0 expression
  | null | «else» | «end» _ => true

/-- Names among the words of an expression, which are read. -/
def reads (words : List String) : List (String × Role) :=
  (words.filter (Symbol.ofText · = .name)).map (·, .read)

/-- The names of a fragment with their roles. -/
def names : Fragment → List (String × Role)
  | assign kind target value => (target.name, kind.role) :: reads (target.part ++ value)
  | header _ expression => reads expression
  | null | «else» | «end» _ => []

/-- The name that is assigned. -/
def assigned? (kind : Assignment) : Fragment → Option String
  | assign kind' target _ => if kind' = kind then some target.name else none
  | _ => none

/-- The fragment detects a clock edge. -/
def detectsEdge (fragment : Fragment) : Bool := fragment.words.any isEdgeFunction

end Fragment

namespace SequentialStatement

mutual

/-- The fragments that a statement is written in. -/
def fragments : SequentialStatement → List Fragment
  | assign kind target value => [.assign kind target value]
  | null => [.null]
  | «if» condition body alternatives otherwise =>
    .header .if condition :: (ofList body ++ (ofBranches .elsif alternatives ++
      (ofElse otherwise ++ [.end .if])))
  | case selector choices => .header .case selector :: (ofBranches .when choices ++ [.end .case])
  | «for» index range body => .header .for (index :: "in" :: range) :: (ofList body ++ [.end .loop])
  | «while» condition body => .header .while condition :: (ofList body ++ [.end .loop])

/-- The fragments of a statement list. -/
def ofList : List SequentialStatement → List Fragment
  | [] => []
  | statement :: statements => fragments statement ++ ofList statements

/-- The fragments of statement lists with a header each. -/
def ofBranches (kind : Header) : List (List String × List SequentialStatement) → List Fragment
  | [] => []
  | (expression, body) :: branches =>
    .header kind expression :: (ofList body ++ ofBranches kind branches)

/-- The fragments of the last alternative. -/
def ofElse : Option (List SequentialStatement) → List Fragment
  | none => []
  | some body => .else :: ofList body

end

end SequentialStatement

/-- A process before it is written. -/
structure WrittenProcess where
  label : Option String := none
  sensitivity : List String
  body : List SequentialStatement

namespace WrittenProcess

/-- The fragments of the body. -/
def fragments (process : WrittenProcess) : List Fragment := SequentialStatement.ofList process.body

/-- The words up to `process`. -/
def opening (process : WrittenProcess) : List String :=
  match process.label with
  | none => ["process"]
  | some label => [label, ":", "process"]

/-- The words of a process. -/
def words (process : WrittenProcess) : List String :=
  process.opening ++ "(" :: (process.sensitivity.intersperse "," ++ ")" :: "begin" ::
    (process.fragments.flatMap (·.words) ++ ["end", "process", ";"]))

/-- The process can be written: its names are identifiers and its expressions are balanced. -/
def isWellFormed (process : WrittenProcess) : Bool :=
  process.label.all isIdentifier && process.sensitivity.all isIdentifier &&
    process.fragments.all (·.isWellFormed)

/-- The names of the body with their roles. -/
def names (process : WrittenProcess) : List (String × Role) := process.fragments.flatMap (·.names)

/-- The names that are assigned by one kind of assignment. -/
def assigned (process : WrittenProcess) (kind : Assignment) : List String :=
  process.fragments.filterMap (·.assigned? kind)

/-- Some statement detects a clock edge. -/
def detectsEdge (process : WrittenProcess) : Bool := process.fragments.any (·.detectsEdge)

end WrittenProcess

/-- The depth of parentheses behind a word of a generate header. No word closes a parenthesis that
is not open, and none ends the header. -/
def headerDepth (depth : Nat) (word : String) : Option Nat :=
  if word = "(" then some (depth + 1)
  else if word = ")" then (if depth = 0 then none else some (depth - 1))
  else if word = "generate" then none
  else some depth

/-- The words can stand in the header of a generate statement. -/
def isHeader (words : List String) : Bool := words.foldlM headerDepth 0 == some 0

/-- The text of an expression whose words have a space between them. -/
def expressionText (words : List String) : String := " ".intercalate words

/-- The condition of the last alternative, which holds where no other one does. -/
def elseCondition (conditions : List (List String)) : String :=
  "not (" ++ " or ".intercalate (conditions.map expressionText) ++ ")"

/-- An item of an architecture body before it is written: a process that drives one signal, or a
generate statement around further items. -/
inductive GenerateItem where
  | process (written : WrittenProcess) (signal : String)
  | if (label : String) (condition : List String) (body : List GenerateItem)
      (alternatives : List (List String × List GenerateItem))
      (otherwise : Option (List GenerateItem))
  | for (label : String) (scheme : List String) (body : List GenerateItem)
  | case (label : String) (selector : List String)
      (choices : List (List String × List GenerateItem))

/-- The process is a clocked one, and all that it drives is part of one signal. -/
def WrittenProcess.drivesOnly (written : WrittenProcess) (signal : String) : Bool :=
  written.isWellFormed && written.detectsEdge && ! (written.assigned .signal).isEmpty &&
    (written.assigned .signal).all (baseName · == signal)

namespace GenerateItem

/-- The words that end a generate statement. -/
def ending : List String := ["end", "generate", ";"]

mutual

/-- The words of an item. -/
def words : GenerateItem → List String
  | process written _ => written.words
  | «if» label condition body alternatives otherwise =>
    [label, ":", "if"] ++ (condition ++ ["generate"] ++ (wordsOfList body ++
      (wordsOfAlternatives alternatives ++ (wordsOfElse otherwise ++ ending))))
  | «for» label scheme body =>
    [label, ":", "for"] ++ (scheme ++ ["generate"] ++ (wordsOfList body ++ ending))
  | case label selector choices =>
    [label, ":", "case"] ++ (selector ++ ["generate"] ++ (wordsOfChoices choices ++ ending))

/-- The words of items. -/
def wordsOfList : List GenerateItem → List String
  | [] => []
  | item :: items => words item ++ wordsOfList items

/-- The words of the `elsif` branches. -/
def wordsOfAlternatives : List (List String × List GenerateItem) → List String
  | [] => []
  | (condition, body) :: branches =>
    ["elsif"] ++ (condition ++ ["generate"] ++ (wordsOfList body ++ wordsOfAlternatives branches))

/-- The words of the `else` branch. -/
def wordsOfElse : Option (List GenerateItem) → List String
  | none => []
  | some body => ["else", "generate"] ++ wordsOfList body

/-- The words of the alternatives of a case. -/
def wordsOfChoices : List (List String × List GenerateItem) → List String
  | [] => []
  | (choice, body) :: branches =>
    ["when"] ++ (choice ++ ["=>"] ++ (wordsOfList body ++ wordsOfChoices branches))

end

mutual

/-- The item can be written: labels are identifiers, and headers and choices end where they
should. -/
def isWellFormed : GenerateItem → Bool
  | process written signal => written.drivesOnly signal
  | «if» label condition body alternatives otherwise =>
    isIdentifier label && isHeader condition && areWellFormed body &&
      alternativesAreWellFormed alternatives && elseIsWellFormed otherwise
  | «for» label scheme body => isIdentifier label && isHeader scheme && areWellFormed body
  | case label selector choices =>
    isIdentifier label && isHeader selector && choicesAreWellFormed choices

/-- The items can be written. -/
def areWellFormed : List GenerateItem → Bool
  | [] => true
  | item :: items => isWellFormed item && areWellFormed items

/-- The `elsif` branches can be written. -/
def alternativesAreWellFormed : List (List String × List GenerateItem) → Bool
  | [] => true
  | (condition, body) :: branches =>
    isHeader condition && areWellFormed body && alternativesAreWellFormed branches

/-- The `else` branch can be written. -/
def elseIsWellFormed : Option (List GenerateItem) → Bool
  | none => true
  | some body => areWellFormed body

/-- The alternatives of a case can be written. -/
def choicesAreWellFormed : List (List String × List GenerateItem) → Bool
  | [] => true
  | (choice, body) :: branches =>
    ! choice.contains "=>" && areWellFormed body && choicesAreWellFormed branches

end

mutual

/-- The signals that the processes of an item drive, each with the conditions around it, outermost
first. -/
def signals (outer : List String) : GenerateItem → List (String × List String)
  | process _ signal => [(signal, outer)]
  | «if» _ condition body alternatives otherwise =>
    signalsOfList (outer ++ [expressionText condition]) body ++
      (signalsOfAlternatives outer alternatives ++
        signalsOfElse outer (condition :: alternatives.map (·.1)) otherwise)
  | «for» _ scheme body => signalsOfList (outer ++ ["for " ++ expressionText scheme]) body
  | case _ selector choices => signalsOfChoices outer selector choices

/-- The signals of items. -/
def signalsOfList (outer : List String) : List GenerateItem → List (String × List String)
  | [] => []
  | item :: items => signals outer item ++ signalsOfList outer items

/-- The signals of the `elsif` branches. -/
def signalsOfAlternatives (outer : List String) :
    List (List String × List GenerateItem) → List (String × List String)
  | [] => []
  | (condition, body) :: branches =>
    signalsOfList (outer ++ [expressionText condition]) body ++ signalsOfAlternatives outer branches

/-- The signals of the `else` branch behind alternatives with the given conditions. -/
def signalsOfElse (outer : List String) (conditions : List (List String)) :
    Option (List GenerateItem) → List (String × List String)
  | none => []
  | some body => signalsOfList (outer ++ [elseCondition conditions]) body

/-- The signals of the alternatives of a case. -/
def signalsOfChoices (outer : List String) (selector : List String) :
    List (List String × List GenerateItem) → List (String × List String)
  | [] => []
  | (choice, body) :: branches =>
    signalsOfList (outer ++ [expressionText selector ++ " = " ++ expressionText choice]) body ++
      signalsOfChoices outer selector branches

end

end GenerateItem

end HdlIndex.Vhdl
