namespace StructuralTypes.Manual

def page (lines : List String) : String :=
  String.join (lines.map (· ++ "\n"))

def overview : String :=
  page [
    "SHAPE DOCUMENTATION",
    "",
    "Shape checks JSON values against structural type expressions such as",
    "\x7b id: string, tags?: Array<string> \x7d | null.",
    "",
    "DOCUMENTATION CATEGORIES",
    "",
    "  syntax      Primitive types and whitespace rules",
    "  literals    String, number, boolean, null and bare-word literals",
    "  objects     Closed object shapes and optional fields",
    "  arrays      Array<T>",
    "  logic       Unions (|), intersections (&) and brackets",
    "  options     Checking options such as --casual-boolean",
    "",
    "QUICK REFERENCE",
    "",
    "  string number boolean Date    Primitives",
    "  true false null               Singletons",
    "  'text' \"text\" 42 1.5 word     Literals",
    "  \x7b a: T, b?: U \x7d               Object (no extra keys allowed)",
    "  Array<T>                      Array",
    "  A & B                         Both (binds tighter)",
    "  A | B                         Either",
    "  ( ... )                       Grouping",
    "",
    "Run 'shape doc <category>' for detailed documentation.",
    "Run 'shape onboard' for a short tutorial."]

def tutorial : String :=
  page [
    "WELCOME TO SHAPE",
    "",
    "Shape checks JSON values against type expressions.",
    "",
    "STEP 1: PRIMITIVES",
    "------------------",
    "  shape check 'string' --input '\"Alice\"'",
    "  => valid",
    "",
    "STEP 2: OBJECTS",
    "---------------",
    "Objects are closed: every key must be declared.",
    "",
    "  shape check '\x7b name: string, age?: number \x7d' --input '\x7b\"name\": \"Alice\"\x7d'",
    "  => valid",
    "",
    "STEP 3: LITERALS AND UNIONS",
    "---------------------------",
    "  shape check \"'y' | 'n'\" --input '\"y\"'",
    "  => valid",
    "",
    "STEP 4: ARRAYS",
    "--------------",
    "  shape check 'Array<number>' --input '[1, 2, 3]'",
    "  => valid",
    "",
    "STEP 5: INTERSECTIONS",
    "---------------------",
    "& merges object shapes and binds tighter than |.",
    "",
    "  shape check '\x7b id: string \x7d & (\x7b tel: string \x7d | \x7b email: string \x7d)' \\",
    "    --input '\x7b\"id\": \"u1\", \"email\": \"a@b.c\"\x7d'",
    "  => valid",
    "",
    "STEP 6: INSPECTING A TYPE",
    "-------------------------",
    "  shape check '\x7b a: number \x7d & \x7b b: string \x7d' --syntax-only",
    "  => \x7b a: number, b: string \x7d",
    "",
    "NEXT STEPS",
    "----------",
    "  shape docs              List all documentation categories",
    "  shape doc logic         Precedence and object intersection",
    "  shape doc objects       Closed object rules"]

inductive Topic
  | basics
  | literals
  | objects
  | arrays
  | logic
  | options
deriving DecidableEq

namespace Topic

/-- A name as topics are looked up by it: in ASCII lower case, with `_` for `-`. -/
def fold (name : String) : String :=
  .ofList (name.toList.map fun c => if c = '-' then '_' else c.toLower)

def ofName? (name : String) : Option Topic :=
  match fold name with
  | "syntax" | "primitives" => some .basics
  | "literals" | "literal" => some .literals
  | "objects" | "object" => some .objects
  | "arrays" | "array" => some .arrays
  | "logic" | "union" | "intersection" => some .logic
  | "options" | "casual_boolean" => some .options
  | _ => none

def basicsPage : String :=
  page [
    "SYNTAX - Primitive Types",
    "",
    "PRIMITIVES",
    "  string     Any string",
    "  number     Any number, integer or float",
    "  boolean    true or false",
    "  Date       A date value (use --parse-dates for RFC 3339 strings in JSON)",
    "",
    "  Example:",
    "    shape check 'number' --input '42'",
    "    => valid",
    "",
    "WHITESPACE",
    "  Whitespace between tokens is ignored:",
    "    \x7ba:number\x7d  and  \x7b a : number \x7d  are the same type.",
    "",
    "KEYWORDS",
    "  A keyword only counts when it is not followed by another letter:",
    "    string      the primitive",
    "    stringify   a bare-word literal (see 'shape doc literals')"]

def literalsPage : String :=
  page [
    "LITERALS - Exact Values",
    "",
    "STRING LITERALS",
    "  'text' or \"text\"",
    "    Matches exactly that string. A backslash copies the next character:",
    "      'it\\'s'   matches  it's",
    "",
    "NUMBER LITERALS",
    "  42, 3.25",
    "    Matches exactly that number. Only unsigned integers and a single",
    "    decimal point are supported; there is no sign or exponent syntax.",
    "",
    "SINGLETONS",
    "  true, false, null",
    "",
    "BARE WORDS",
    "  active",
    "    An identifier that is not a keyword matches the string spelled the same",
    "    way. 'active' and active accept the same values."]

def objectsPage : String :=
  page [
    "OBJECTS - Closed Shapes",
    "",
    "SYNTAX",
    "  \x7b name: string, age?: number \x7d",
    "    Fields are separated by ',' or ';'. A '?' after the key makes the field",
    "    optional. Keys are bare words (letters, digits, underscore) or quoted.",
    "",
    "CLOSED CHECKING",
    "  Every key in the value must be declared:",
    "    shape check '\x7b id: string \x7d' --input '\x7b\"id\": \"a\", \"extra\": 1\x7d'",
    "    => Validation failed: unexpected extra field 'extra'",
    "",
    "  Required keys must be present; a present null still counts as present",
    "  and is checked against the field type.",
    "",
    "FIELD TYPES",
    "  Any expression works as a field type:",
    "    \x7b kind: 'a' | 'b', payload: \x7b x: number \x7d & \x7b y: number \x7d \x7d"]

def arraysPage : String :=
  page [
    "ARRAYS - Array<T>",
    "",
    "SYNTAX",
    "  Array<T>",
    "    Every element must match T. An empty array always matches.",
    "",
    "  Examples:",
    "    Array<string>              [\"a\", \"b\"]",
    "    Array<\x7b id: number \x7d>      [\x7b\"id\": 1\x7d, \x7b\"id\": 2\x7d]",
    "    Array<'x' | 'y'>           [\"x\", \"y\", \"x\"]",
    "",
    "ERRORS",
    "  The first mismatching element is reported with its index:",
    "    at index 1: expected string, got number"]

def logicPage : String :=
  page [
    "LOGIC - Unions, Intersections and Brackets",
    "",
    "OPERATORS",
    "  A | B    the value matches A or B",
    "  A & B    the value matches A and B",
    "",
    "PRECEDENCE",
    "  & binds tighter than |:",
    "    \x7b a: number \x7d | \x7b b: number \x7d & \x7b c: number \x7d",
    "  reads as",
    "    \x7b a: number \x7d | (\x7b b: number \x7d & \x7b c: number \x7d)",
    "",
    "BRACKETS",
    "  ( ... ) groups:",
    "    (\x7b a: number \x7d | \x7b b: number \x7d) & \x7b c: number \x7d",
    "  accepts \x7b\"a\": 1, \"c\": 1\x7d and \x7b\"b\": 1, \"c\": 1\x7d only.",
    "",
    "OBJECT INTERSECTION",
    "  Intersecting objects merges their fields, so closed checking still works:",
    "    \x7b a: number \x7d & \x7b b: string \x7d   is   \x7b a: number, b: string \x7d",
    "",
    "  A shared field is required unless both sides mark it optional, and its",
    "  type is the intersection of both field types."]

def optionsPage : String :=
  page [
    "OPTIONS - Checking Options",
    "",
    "--casual-boolean",
    "  Accept 0 and 1 for boolean, false and true:",
    "    shape check 'true' --input '1' --casual-boolean",
    "    => valid",
    "",
    "  Strings such as \"true\" are still rejected.",
    "",
    "--parse-dates",
    "  Read RFC 3339 strings in the JSON input as Date values.",
    "",
    "--syntax-only",
    "  Compile the type and print its normalized form without checking input.",
    "  Add --pretty to print one object field per line.",
    "",
    "LOGGING",
    "  Set SHAPE_LOG (e.g. SHAPE_LOG=debug) to see compiled types on stderr."]

def text : Topic → String
  | .basics => basicsPage
  | .literals => literalsPage
  | .objects => objectsPage
  | .arrays => arraysPage
  | .logic => logicPage
  | .options => optionsPage

end Topic

end StructuralTypes.Manual
