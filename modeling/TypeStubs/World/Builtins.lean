import TypeStubs.Object
import TypeStubs.World.Builtins.Docs
import TypeStubs.World.Builtins.Members

/-! The objects of the language itself: its classes, exceptions, functions and constants. -/

namespace TypeStubs.Builtins

def moduleName : String := "builtins"

/-- The classes whose instances are complete when they are made. -/
def completeClasses : List String :=
  ["bool", "bytes", "complex", "enumerate", "filter", "float", "frozenset", "int", "map",
   "memoryview", "range", "reversed", "slice", "str", "tuple", "zip"]

def makersOf (name : String) : List (String × Object) :=
  let native (routine doc : String) : String × Object :=
    (routine, .routine .native ⟨some routine, some (name ++ "." ++ routine), none, some doc⟩ none)
  let maker := native "__new__"
    "Create and return a new object.  See help(type) for accurate signature."
  let initializer := native "__init__"
    "Initialize self.  See help(type(self)) for accurate signature."
  if name = "object" || name = "type" then []
  else if name ∈ completeClasses then [maker]
  else [initializer, maker]

/-- A class, with the names of its bases. Nothing asks for more than the names of its other
members. -/
def classOf (name : String) (bases : List String) : Object :=
  .classDef ⟨some name, some name, some moduleName, docOf? name⟩ (.builtin "type")
    (bases.map fun b => ⟨[moduleName, b]⟩) (makersOf name ++ (ownMembers name).map (·, .none))

/-- The classes with the same bases. -/
def classGroups : List (List String × List String) :=
  [([], ["BaseException", "bytearray", "bytes", "classmethod", "complex", "dict", "enumerate",
     "filter", "float", "frozenset", "int", "list", "map", "memoryview", "object", "property",
     "range", "reversed", "set", "slice", "staticmethod", "str", "super", "tuple", "type", "zip"]),
   (["ArithmeticError"], ["FloatingPointError", "OverflowError", "ZeroDivisionError"]),
   (["BaseException"], ["BaseExceptionGroup", "Exception", "GeneratorExit", "KeyboardInterrupt",
     "SystemExit"]),
   (["ConnectionError"], ["BrokenPipeError", "ConnectionAbortedError", "ConnectionRefusedError",
     "ConnectionResetError"]),
   (["Exception"], ["ArithmeticError", "AssertionError", "AttributeError", "BufferError",
     "EOFError", "ImportError", "LookupError", "MemoryError", "NameError", "OSError",
     "ReferenceError", "RuntimeError", "StopAsyncIteration", "StopIteration", "SyntaxError",
     "SystemError", "TypeError", "ValueError", "Warning"]),
   (["ImportError"], ["ModuleNotFoundError"]),
   (["IndentationError"], ["TabError"]),
   (["LookupError"], ["IndexError", "KeyError"]),
   (["NameError"], ["UnboundLocalError"]),
   (["OSError"], ["BlockingIOError", "ChildProcessError", "ConnectionError", "FileExistsError",
     "FileNotFoundError", "InterruptedError", "IsADirectoryError", "NotADirectoryError",
     "PermissionError", "ProcessLookupError", "TimeoutError"]),
   (["RuntimeError"], ["NotImplementedError", "RecursionError"]),
   (["SyntaxError"], ["IndentationError"]),
   (["UnicodeError"], ["UnicodeDecodeError", "UnicodeEncodeError", "UnicodeTranslateError"]),
   (["ValueError"], ["UnicodeError"]),
   (["Warning"], ["BytesWarning", "DeprecationWarning", "EncodingWarning", "FutureWarning",
     "ImportWarning", "PendingDeprecationWarning", "ResourceWarning", "RuntimeWarning",
     "SyntaxWarning", "UnicodeWarning", "UserWarning"]),
   (["int"], ["bool"]),
   (["BaseExceptionGroup", "Exception"], ["ExceptionGroup"])]

def classBases : List (String × List String) := classGroups.flatMap fun g => g.2.map (·, g.1)

def finalClasses : List String := ["bool", "memoryview", "range", "slice"]

def laidOut : List String :=
  ["AttributeError", "BaseException", "BaseExceptionGroup", "ImportError", "NameError", "OSError",
   "StopIteration", "SyntaxError", "SystemExit", "UnicodeDecodeError", "UnicodeEncodeError",
   "UnicodeTranslateError", "bytearray", "bytes", "classmethod", "complex", "dict", "enumerate",
   "filter", "float", "frozenset", "int", "list", "map", "property", "reversed", "set",
   "staticmethod", "str", "super", "tuple", "type", "zip"]

def secondNames : List String := ["EnvironmentError", "IOError"]

def byPosition (name : String) (default : Option Object := none) : Parameter Object :=
  ⟨name, .positionOnly, default, none⟩

def plain (name : String) (default : Option Object := none) : Parameter Object :=
  ⟨name, .plain, default, none⟩

def byName (name : String) (default : Option Object) : Parameter Object :=
  ⟨name, .keywordOnly, default, none⟩

def variadic (name : String) : Parameter Object := ⟨name, .variadic, none, none⟩

def unsigned (name : String) (doc : List String) : String × Object :=
  (name, .routine .native ⟨some name, some name, some moduleName, some (joinWith "\n" doc)⟩ none)

def native (name : String) (parameters : List (Parameter Object)) (doc : List String) :
    String × Object :=
  (name, .routine .native ⟨some name, some name, some moduleName, some (joinWith "\n" doc)⟩
    (some ⟨parameters, none⟩))

def classSignatures : List (String × List (Parameter Object)) :=
  [("complex", [plain "real" (some (.int 0)), plain "imag" (some (.int 0))]),
   ("enumerate", [plain "iterable", plain "start" (some (.int 0))]),
   ("float", [byPosition "x" (some (.int 0))]),
   ("list", [byPosition "iterable" (some (.tuple []))]),
   ("memoryview", [plain "object"]),
   ("object", []),
   ("property", [plain "fget" (some .none), plain "fset" (some .none), plain "fdel" (some .none),
      plain "doc" (some .none)]),
   ("reversed", [byPosition "sequence"]),
   ("tuple", [byPosition "iterable" (some (.tuple []))])]

def functions : List (String × Object) :=
  [unsigned "__build_class__"
     ["__build_class__(func, name, /, *bases, [metaclass], **kwds) -> class", "",
      "Internal helper function used by the class statement."],
   native "__import__" [
       plain "name", plain "globals" (some .none), plain "locals" (some .none),
       plain "fromlist" (some (.tuple [])), plain "level" (some (.int 0))]
     ["Import a module.", "", "Because this function is meant for use by the Python",
      "interpreter and not for general use, it is better to use",
      "importlib.import_module() to programmatically import a module.", "",
      "The globals argument is only used to determine the context;",
      "they are not modified.  The locals argument is unused.  The fromlist",
      "should be a list of names to emulate ``from name import ...``, or an",
      "empty list to emulate ``import name``.",
      "When importing a module from a package, note that __import__('A.B', ...)",
      "returns package A when fromlist is empty, but its submodule B when",
      "fromlist is not empty.  The level argument is used to determine whether to",
      "perform absolute or relative imports: 0 is absolute, while a positive number",
      "is the number of parent directories to search relative to the current module."],
   native "abs" [byPosition "x"]
     ["Return the absolute value of the argument."],
   native "aiter" [byPosition "async_iterable"]
     ["Return an AsyncIterator for an AsyncIterable object."],
   native "all" [byPosition "iterable"]
     ["Return True if bool(x) is True for all values x in the iterable.", "",
      "If the iterable is empty, return True."],
   unsigned "anext"
     ["async anext(aiterator[, default])", "",
      "Return the next item from the async iterator.  If default is given and the async",
      "iterator is exhausted, it is returned instead of raising StopAsyncIteration."],
   native "any" [byPosition "iterable"]
     ["Return True if bool(x) is True for any x in the iterable.", "",
      "If the iterable is empty, return False."],
   native "ascii" [byPosition "obj"]
     ["Return an ASCII-only representation of an object.", "",
      "As repr(), return a string containing a printable representation of an",
      "object, but escape the non-ASCII characters in the string returned by",
      "repr() using \\\\x, \\\\u or \\\\U escapes. This generates a string similar",
      "to that returned by repr() in Python 2."],
   native "bin" [byPosition "number"]
     ["Return the binary representation of an integer.", "", "   >>> bin(2796202)",
      "   '0b1010101010101010101010'"],
   unsigned "breakpoint"
     ["breakpoint(*args, **kws)", "",
      "Call sys.breakpointhook(*args, **kws).  sys.breakpointhook() must accept",
      "whatever arguments are passed.", "", "By default, this drops you into the pdb debugger."],
   native "callable" [byPosition "obj"]
     ["Return whether the object is callable (i.e., some kind of function).", "",
      "Note that classes are callable, as are instances of classes with a", "__call__() method."],
   native "chr" [byPosition "i"]
     ["Return a Unicode string of one character with ordinal i; 0 <= i <= 0x10ffff."],
   native "compile" [
       plain "source", plain "filename", plain "mode", plain "flags" (some (.int 0)),
       plain "dont_inherit" (some (.bool false)), plain "optimize" (some (.int (-1))),
       byName "_feature_version" (some (.int (-1)))]
     ["Compile source into a code object that can be executed by exec() or eval().", "",
      "The source code may represent a Python module, statement or expression.",
      "The filename will be used for run-time error messages.",
      "The mode must be 'exec' to compile a module, 'single' to compile a",
      "single (interactive) statement, or 'eval' to compile an expression.",
      "The flags argument, if present, controls which future statements influence",
      "the compilation of the code.",
      "The dont_inherit argument, if true, stops the compilation inheriting",
      "the effects of any future statements in effect in the code calling",
      "compile; if absent or false these statements do influence the compilation,",
      "in addition to any features explicitly specified."],
   native "delattr" [byPosition "obj", byPosition "name"]
     ["Deletes the named attribute from the given object.", "",
      "delattr(x, 'y') is equivalent to ``del x.y``"],
   unsigned "dir"
     ["dir([object]) -> list of strings", "",
      "If called without an argument, return the names in the current scope.",
      "Else, return an alphabetized list of names comprising (some of) the attributes",
      "of the given object, and of attributes reachable from it.",
      "If the object supplies a method named __dir__, it will be used; otherwise",
      "the default dir() logic is used and returns:",
      "  for a module object: the module's attributes.",
      "  for a class object:  its attributes, and recursively the attributes", "    of its bases.",
      "  for any other object: its attributes, its class's attributes, and",
      "    recursively the attributes of its class's base classes."],
   native "divmod" [byPosition "x", byPosition "y"]
     ["Return the tuple (x//y, x%y).  Invariant: div*y + mod == x."],
   native "eval" [
       byPosition "source", byPosition "globals" (some .none), byPosition "locals" (some .none)]
     ["Evaluate the given source in the context of globals and locals.", "",
      "The source may be a string representing a Python expression",
      "or a code object as returned by compile().",
      "The globals must be a dictionary and locals can be any mapping,",
      "defaulting to the current globals and locals.",
      "If only globals is given, locals defaults to it."],
   native "exec" [
       byPosition "source", byPosition "globals" (some .none), byPosition "locals" (some .none),
       byName "closure" (some .none)]
     ["Execute the given source in the context of globals and locals.", "",
      "The source may be a string representing one or more Python statements",
      "or a code object as returned by compile().",
      "The globals must be a dictionary and locals can be any mapping,",
      "defaulting to the current globals and locals.",
      "If only globals is given, locals defaults to it.",
      "The closure must be a tuple of cellvars, and can only be used",
      "when source is a code object requiring exactly that many cellvars."],
   native "format" [byPosition "value", byPosition "format_spec" (some (.str ""))]
     ["Return value.__format__(format_spec)", "", "format_spec defaults to the empty string.",
      "See the Format Specification Mini-Language section of help('FORMATTING') for", "details."],
   unsigned "getattr"
     ["getattr(object, name[, default]) -> value", "",
      "Get a named attribute from an object; getattr(x, 'y') is equivalent to x.y.",
      "When a default argument is given, it is returned when the attribute doesn't",
      "exist; without it, an exception is raised in that case."],
   native "globals" []
     ["Return the dictionary containing the current scope's global variables.", "",
      "NOTE: Updates to this dictionary *will* affect name lookups in the current",
      "global scope and vice-versa."],
   native "hasattr" [byPosition "obj", byPosition "name"]
     ["Return whether the object has an attribute with the given name.", "",
      "This is done by calling getattr(obj, name) and catching AttributeError."],
   native "hash" [byPosition "obj"]
     ["Return the hash value for the given object.", "",
      "Two objects that compare equal must also have the same hash value, but the",
      "reverse is not necessarily true."],
   native "hex" [byPosition "number"]
     ["Return the hexadecimal representation of an integer.", "", "   >>> hex(12648430)",
      "   '0xc0ffee'"],
   native "id" [byPosition "obj"]
     ["Return the identity of an object.", "",
      "This is guaranteed to be unique among simultaneously existing objects.",
      "(CPython uses the object's memory address.)"],
   native "input" [byPosition "prompt" (some (.str ""))]
     ["Read a string from standard input.  The trailing newline is stripped.", "",
      "The prompt string, if given, is printed to standard output without a",
      "trailing newline before reading input.", "",
      "If the user hits EOF (*nix: Ctrl-D, Windows: Ctrl-Z+Return), raise EOFError.",
      "On *nix systems, readline is used if available."],
   native "isinstance" [byPosition "obj", byPosition "class_or_tuple"]
     ["Return whether an object is an instance of a class or of a subclass thereof.", "",
      "A tuple, as in ``isinstance(x, (A, B, ...))``, may be given as the target to",
      "check against. This is equivalent to ``isinstance(x, A) or isinstance(x, B)",
      "or ...`` etc."],
   native "issubclass" [byPosition "cls", byPosition "class_or_tuple"]
     ["Return whether 'cls' is derived from another class or is the same class.", "",
      "A tuple, as in ``issubclass(x, (A, B, ...))``, may be given as the target to",
      "check against. This is equivalent to ``issubclass(x, A) or issubclass(x, B)", "or ...``."],
   unsigned "iter"
     ["iter(iterable) -> iterator", "iter(callable, sentinel) -> iterator", "",
      "Get an iterator from an object.  In the first form, the argument must",
      "supply its own iterator, or be a sequence.",
      "In the second form, the callable is called until it returns the sentinel."],
   native "len" [byPosition "obj"]
     ["Return the number of items in a container."],
   native "locals" []
     ["Return a dictionary containing the current scope's local variables.", "",
      "NOTE: Whether or not updates to this dictionary will affect name lookups in",
      "the local scope and vice-versa is *implementation dependent* and not",
      "covered by any backwards compatibility guarantees."],
   unsigned "max"
     ["max(iterable, *[, default=obj, key=func]) -> value",
      "max(arg1, arg2, *args, *[, key=func]) -> value", "",
      "With a single iterable argument, return its biggest item. The",
      "default keyword-only argument specifies an object to return if",
      "the provided iterable is empty.",
      "With two or more arguments, return the largest argument."],
   unsigned "min"
     ["min(iterable, *[, default=obj, key=func]) -> value",
      "min(arg1, arg2, *args, *[, key=func]) -> value", "",
      "With a single iterable argument, return its smallest item. The",
      "default keyword-only argument specifies an object to return if",
      "the provided iterable is empty.",
      "With two or more arguments, return the smallest argument."],
   unsigned "next"
     ["next(iterator[, default])", "",
      "Return the next item from the iterator. If default is given and the iterator",
      "is exhausted, it is returned instead of raising StopIteration."],
   native "oct" [byPosition "number"]
     ["Return the octal representation of an integer.", "", "   >>> oct(342391)", "   '0o1234567'"],
   native "open" [
       plain "file", plain "mode" (some (.str "r")), plain "buffering" (some (.int (-1))),
       plain "encoding" (some .none), plain "errors" (some .none), plain "newline" (some .none),
       plain "closefd" (some (.bool true)), plain "opener" (some .none)]
     ["Open file and return a stream.  Raise OSError upon failure."],
   native "ord" [byPosition "c"]
     ["Return the Unicode code point for a one-character string."],
   native "pow" [plain "base", plain "exp", plain "mod" (some .none)]
     ["Equivalent to base**exp with 2 arguments or base**exp % mod with 3 arguments", "",
      "Some types, such as ints, are able to use a more efficient algorithm when",
      "invoked using the three argument form."],
   native "print" [
       variadic "args", byName "sep" (some (.str " ")), byName "end" (some (.str "\n")),
       byName "file" (some .none), byName "flush" (some (.bool false))]
     ["Prints the values to a stream, or to sys.stdout by default.", "", "  sep",
      "    string inserted between values, default a space.", "  end",
      "    string appended after the last value, default a newline.", "  file",
      "    a file-like object (stream); defaults to the current sys.stdout.", "  flush",
      "    whether to forcibly flush the stream."],
   native "repr" [byPosition "obj"]
     ["Return the canonical string representation of the object.", "",
      "For many object types, including most builtins, eval(repr(obj)) == obj."],
   native "round" [plain "number", plain "ndigits" (some .none)]
     ["Round a number to a given precision in decimal digits.", "",
      "The return value is an integer if ndigits is omitted or None.  Otherwise",
      "the return value has the same type as the number.  ndigits may be negative."],
   native "setattr" [byPosition "obj", byPosition "name", byPosition "value"]
     ["Sets the named attribute on the given object to the specified value.", "",
      "setattr(x, 'y', v) is equivalent to ``x.y = v``"],
   native "sorted" [
       byPosition "iterable", byName "key" (some .none), byName "reverse" (some (.bool false))]
     ["Return a new list containing all items from the iterable in ascending order.", "",
      "A custom key function can be supplied to customize the sort order, and the",
      "reverse flag can be set to request the result in descending order."],
   native "sum" [byPosition "iterable", plain "start" (some (.int 0))]
     ["Return the sum of a 'start' value (default: 0) plus an iterable of numbers", "",
      "When the iterable is empty, return the start value.",
      "This function is intended specifically for use with numeric values and may",
      "reject non-numeric types."],
   unsigned "vars"
     ["vars([object]) -> dictionary", "", "Without arguments, equivalent to locals().",
      "With an argument, equivalent to object.__dict__."]]

def constants : List (String × Object) :=
  [("Ellipsis", .value (.builtin "ellipsis") .object "Ellipsis"), ("False", .bool false),
   ("None", .none), ("NotImplemented", .value (.builtin "NotImplementedType") .object
     "NotImplemented"), ("True", .bool true), ("__debug__", .bool true)]

def interactive : List String :=
  ["copyright", "credits", "exit", "help", "license", "quit"]

def asModule : Object :=
  .moduleDef moduleName none <|
    classBases.map (fun c => (c.1, classOf c.1 c.2)) ++
    secondNames.map (·, classOf "OSError" ["Exception"]) ++ functions ++ constants ++
    interactive.map (fun n => (n, .value ⟨some "_sitebuiltins", "_Printer"⟩ .object n))

end TypeStubs.Builtins
