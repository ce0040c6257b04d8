import PCode.Native.Library
import PCode.Source.Resolve

/-!
# Sample programs

Programs that between them use every construct for which code is generated, each
with the lines it reads and writes.

Main definitions: `Sample.all`, `Sample.find?`, `Sample.tree`.
-/

namespace PCode.Source

/-- A named program with what it reads and writes. -/
structure Sample where
  name : String
  description : String
  input : List String := []
  output : List String := []
  program : Subprogram
  deriving Inhabited

namespace Sample

/-! ## Shorthands -/

/-- A variable by name. -/
def var (name : String) : Expr := .ident {} { name }

/-- A number literal. -/
def num (x : Float) : Expr := .number {} x

/-- A string literal. -/
def str (s : String) : Expr := .string {} s

/-- A number literal as a real. -/
def asReal (x : Float) : Expr := .cast {} (num x) (some .real)

def deref (base : Expr) : Expr := .deref {} base

def element (name : String) (indices : List Expr) : Expr := .index {} (var name) indices

def intOp (op : BinaryOp) (left right : Expr) : Expr := .binary {} op left right (some .integer)

def realOp (op : BinaryOp) (left right : Expr) : Expr := .binary {} op left right (some .real)

def test (op : BinaryOp) (left right : Expr) : Expr := .binary {} op left right (some .boolean)

/-- An argument passed by value. -/
def byValue (e : Expr) : Arg := .mk e false 1

/-- An argument passed by reference. -/
def byRef (e : Expr) : Arg := .mk e true 1

/-- A function call with arguments passed by value. -/
def apply (name : String) (args : List Expr) : Expr := .call {} { name } (args.map byValue)

/-- A procedure call. -/
def call (name : String) (args : List Arg) : Stmt := .call {} { name } args

/-- Write a line. -/
def writeLn (args : List Expr) : Stmt := call "WriteLn" (args.map byValue)

def assign (target value : Expr) : Stmt := .assign {} target value

def block (body : List Stmt) : Stmt := .block {} body

def forUp (counter : String) (first last : Float) (body : Stmt) : Stmt :=
  .forTo {} counter (num first) (num last) false body

def declare (names : List String) (type : Ty) : List Decl := names.map (.var · (some type))

def mainProgram (decls : List Decl) (body : List Stmt) : Subprogram :=
  .mk {} .program "main" none decls body

/-! ## The programs -/

def count : Sample where
  name := "count"
  description := "for i := 1 to 3 do WriteLn(i)"
  output := ["1", "2", "3"]
  program := mainProgram (declare ["i"] .integer) [forUp "i" 1 3 (writeLn [var "i"])]

def countdown : Sample where
  name := "countdown"
  description := "downto loop with a Delay between lines"
  output := ["3", "2", "1"]
  program := mainProgram (declare ["i"] .integer)
    [ .forTo {} "i" (num 3) (num 1) true
        (block [writeLn [var "i"], call "Delay" [byValue (num 5)]]) ]

def divzero : Sample where
  name := "divzero"
  description := "x := 1 div 0 stops the machine before the WriteLn"
  program := mainProgram (declare ["x"] .integer)
    [ assign (var "x") (intOp .intDiv (num 1) (num 0))
    , writeLn [str "x =", var "x"] ]

def echo : Sample where
  name := "echo"
  description := "ReadLn a line and write it back"
  input := ["hello"]
  output := ["you said: hello"]
  program := mainProgram (declare ["s"] .string)
    [ assign (var "s") (apply "ReadLn" [])
    , writeLn [str "you said:", var "s"] ]

/-- A recursive function. -/
def factorialFunction : Subprogram :=
  .mk {} .function "Fact" (some (some .integer))
    [.param { name := "n", type := some .integer }]
    [ .cond {} (test .le (var "n") (num 1))
        (assign (.result {}) (num 1))
        (assign (.result {})
          (intOp .mul (var "n") (apply "Fact" [intOp .sub (var "n") (num 1)]))) ]

def factorial : Sample where
  name := "factorial"
  description := "recursive function returning an integer"
  output :=
    ["Fact 1 = 1", "Fact 2 = 2", "Fact 3 = 6", "Fact 4 = 24", "Fact 5 = 120", "Fact 6 = 720"]
  program := mainProgram (declare ["i"] .integer ++ [.sub factorialFunction])
    [forUp "i" 1 6 (writeLn [str "Fact", var "i", str "=", apply "Fact" [var "i"]])]

def matrix : Sample where
  name := "matrix"
  description := "two-dimensional array filled and summed in row-major order"
  output := ["21", "sum = 129"]
  program := mainProgram
    (declare ["m"] (.array [⟨1, 3⟩, ⟨1, 2⟩] .integer) ++ declare ["i", "j", "sum"] .integer)
    [ forUp "i" 1 3 (forUp "j" 1 2
        (assign (element "m" [var "i", var "j"])
          (intOp .add (intOp .mul (var "i") (num 10)) (var "j"))))
    , assign (var "sum") (num 0)
    , forUp "i" 1 3 (forUp "j" 1 2
        (assign (var "sum") (intOp .add (var "sum") (element "m" [var "i", var "j"]))))
    , writeLn [element "m" [num 2, num 1]]
    , writeLn [str "sum =", var "sum"] ]

/-- A procedure that changes a variable of the procedure around it. -/
def innerProcedure : Subprogram :=
  .mk {} .procedure "Inner" none []
    [ assign (var "k") (intOp .add (var "k") (num 1))
    , .cond {} (test .gt (var "k") (num 2)) (.exit {}) .missing
    , writeLn [str "inner", var "k"] ]

def outerProcedure : Subprogram :=
  .mk {} .procedure "Outer" none (declare ["k"] .integer ++ [.sub innerProcedure])
    [ assign (var "k") (num 0)
    , call "Inner" []
    , call "Inner" []
    , call "Inner" []
    , writeLn [str "outer done", var "k"] ]

def nested : Sample where
  name := "nested"
  description := "nested procedure updating its parent's variable, with exit"
  output := ["inner 1", "inner 2", "outer done 3"]
  program := mainProgram [.sub outerProcedure] [call "Outer" []]

def pointers : Sample where
  name := "pointers"
  description := "New, dereference and Dispose"
  output := ["42 43", "TRUE"]
  program := mainProgram (["p", "q"].map (.var · (Ty.pointerTo? .integer)))
    [ call "New" [byRef (var "p"), byValue (num 1)]
    , assign (deref (var "p")) (num 42)
    , call "New" [byRef (var "q"), byValue (num 1)]
    , assign (deref (var "q")) (intOp .add (deref (var "p")) (num 1))
    , writeLn [deref (var "p"), deref (var "q")]
    , call "Dispose" [byRef (var "q")]
    , call "Dispose" [byRef (var "p")]
    , writeLn [test .eq (var "p") (.nil {})] ]

def primes : Sample where
  name := "primes"
  description := "typed constant array read by while and repeat loops"
  output := ["sum = 28", "11", "7"]
  program := mainProgram
    (.const {} "primes" (some (.array [⟨1, 5⟩] .integer))
        (#[2, 3, 5, 7, 11].map Value.ofInt) :: declare ["i", "sum"] .integer)
    [ assign (var "sum") (num 0)
    , assign (var "i") (num 1)
    , .whileDo {} (test .le (var "i") (num 5)) (block
        [ assign (var "sum") (intOp .add (var "sum") (element "primes" [var "i"]))
        , assign (var "i") (intOp .add (var "i") (num 1)) ])
    , writeLn [str "sum =", var "sum"]
    , assign (var "i") (num 5)
    , .repeatUntil {}
        [ writeLn [element "primes" [var "i"]]
        , assign (var "i") (intOp .sub (var "i") (num 1)) ]
        (test .lt (var "i") (num 4)) ]

def reals : Sample where
  name := "reals"
  description := "real division and the math builtins"
  output := ["r = 0.25", "314", "3", "TRUE"]
  program := mainProgram (declare ["r"] .real)
    [ assign (var "r") (realOp .div (asReal 1) (asReal 4))
    , writeLn [str "r =", var "r"]
    , writeLn [apply "Round" [realOp .mul (num Library.pi) (asReal 100)]]
    , writeLn [apply "Trunc" [apply "Sqrt" [num 10]]]
    , writeLn [apply "Odd" [num 7]] ]

/-- A record of two coordinates. -/
def point : Ty := .record [⟨"x", .integer⟩, ⟨"y", .integer⟩]

def records : Sample :=
  let p (name : String) : Expr := .field {} (var "p") name
  let pts (i : Float) (name : String) : Expr := .field {} (element "pts" [num i]) name
  { name := "records"
    description := "record fields, alone and inside an array"
    output := ["pts[2].y = 7", "pts[1].x = 14"]
    program := mainProgram (declare ["p"] point ++ declare ["pts"] (.array [⟨1, 2⟩] point))
      [ assign (p "x") (num 3)
      , assign (p "y") (num 4)
      , assign (pts 2 "y") (intOp .add (p "x") (p "y"))
      , assign (pts 1 "x") (intOp .mul (pts 2 "y") (num 2))
      , writeLn [str "pts[2].y =", pts 2 "y"]
      , writeLn [str "pts[1].x =", pts 1 "x"] ] }

/-! ## The collection -/

/-- Every sample, in the order of names. -/
def all : List Sample :=
  [count, countdown, divzero, echo, factorial, matrix, nested, pointers, primes, reals, records]

/-- The sample with a given name, in which case does not count. -/
def find? (name : String) : Option Sample := all.find? (Text.lower ·.name == Text.lower name)

/-- The resolved tree of a sample. -/
def tree (s : Sample) (natives : Registry) : Except TreeError PCode.Subprogram :=
  s.program.tree natives

end Sample

end PCode.Source
