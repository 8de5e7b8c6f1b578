/-! The documentation of the classes of the language itself. -/

namespace TypeStubs.Builtins

def classDocs : List (String × List String) :=
  [("ArithmeticError", ["Base class for arithmetic errors."]),
   ("AssertionError", ["Assertion failed."]),
   ("AttributeError", ["Attribute not found."]),
   ("BaseException", ["Common base class for all exceptions"]),
   ("BaseExceptionGroup", ["A combination of multiple unrelated exceptions."]),
   ("BlockingIOError", ["I/O operation would block."]),
   ("BrokenPipeError", ["Broken pipe."]),
   ("BufferError", ["Buffer error."]),
   ("BytesWarning", ["Base class for warnings about bytes and buffer related problems, mostly",
      "related to conversion from str or comparing to str."]),
   ("ChildProcessError", ["Child process error."]),
   ("ConnectionAbortedError", ["Connection aborted."]),
   ("ConnectionError", ["Connection error."]),
   ("ConnectionRefusedError", ["Connection refused."]),
   ("ConnectionResetError", ["Connection reset."]),
   ("DeprecationWarning", ["Base class for warnings about deprecated features."]),
   ("EOFError", ["Read beyond end of file."]),
   ("EncodingWarning", ["Base class for warnings about encodings."]),
   ("Exception", ["Common base class for all non-exit exceptions."]),
   ("FileExistsError", ["File already exists."]),
   ("FileNotFoundError", ["File not found."]),
   ("FloatingPointError", ["Floating point operation failed."]),
   ("FutureWarning", ["Base class for warnings about constructs that will change semantically",
      "in the future."]),
   ("GeneratorExit", ["Request that a generator exit."]),
   ("ImportError", ["Import can't find module, or can't find name in module."]),
   ("ImportWarning", ["Base class for warnings about probable mistakes in module imports"]),
   ("IndentationError", ["Improper indentation."]),
   ("IndexError", ["Sequence index out of range."]),
   ("InterruptedError", ["Interrupted by signal."]),
   ("IsADirectoryError", ["Operation doesn't work on directories."]),
   ("KeyError", ["Mapping key not found."]),
   ("KeyboardInterrupt", ["Program interrupted by user."]),
   ("LookupError", ["Base class for lookup errors."]),
   ("MemoryError", ["Out of memory."]),
   ("ModuleNotFoundError", ["Module not found."]),
   ("NameError", ["Name not found globally."]),
   ("NotADirectoryError", ["Operation only works on directories."]),
   ("NotImplementedError", ["Method or function hasn't been implemented yet."]),
   ("OSError", ["Base class for I/O related errors."]),
   ("OverflowError", ["Result too large to be represented."]),
   ("PendingDeprecationWarning", ["Base class for warnings about features which will be deprecated",
      "in the future."]),
   ("PermissionError", ["Not enough permissions."]),
   ("ProcessLookupError", ["Process not found."]),
   ("RecursionError", ["Recursion limit exceeded."]),
   ("ReferenceError", ["Weak ref proxy used after referent went away."]),
   ("ResourceWarning", ["Base class for warnings about resource usage."]),
   ("RuntimeError", ["Unspecified run-time error."]),
   ("RuntimeWarning", ["Base class for warnings about dubious runtime behavior."]),
   ("StopAsyncIteration", ["Signal the end from iterator.__anext__()."]),
   ("StopIteration", ["Signal the end from iterator.__next__()."]),
   ("SyntaxError", ["Invalid syntax."]),
   ("SyntaxWarning", ["Base class for warnings about dubious syntax."]),
   ("SystemError", ["Internal error in the Python interpreter.", "",
      "Please report this to the Python maintainer, along with the traceback,",
      "the Python version, and the hardware/OS platform and version."]),
   ("SystemExit", ["Request to exit from the interpreter."]),
   ("TabError", ["Improper mixture of spaces and tabs."]),
   ("TimeoutError", ["Timeout expired."]),
   ("TypeError", ["Inappropriate argument type."]),
   ("UnboundLocalError", ["Local name referenced but not bound to a value."]),
   ("UnicodeDecodeError", ["Unicode decoding error."]),
   ("UnicodeEncodeError", ["Unicode encoding error."]),
   ("UnicodeError", ["Unicode related error."]),
   ("UnicodeTranslateError", ["Unicode translation error."]),
   ("UnicodeWarning", ["Base class for warnings about Unicode related problems, mostly",
      "related to conversion problems."]),
   ("UserWarning", ["Base class for warnings generated by user code."]),
   ("ValueError", ["Inappropriate argument value (of correct type)."]),
   ("Warning", ["Base class for warning categories."]),
   ("ZeroDivisionError", ["Second argument to a division or modulo operation was zero."]),
   ("bool", ["bool(x) -> bool", "", "Returns True when the argument x is true, False otherwise.",
      "The builtins True and False are the only two instances of the class bool.",
      "The class bool is a subclass of the class int, and cannot be subclassed."]),
   ("bytearray", ["bytearray(iterable_of_ints) -> bytearray",
      "bytearray(string, encoding[, errors]) -> bytearray",
      "bytearray(bytes_or_buffer) -> mutable copy of bytes_or_buffer",
      "bytearray(int) -> bytes array of size given by the parameter initialized with null bytes",
      "bytearray() -> empty bytes array", "", "Construct a mutable bytearray object from:",
      "  - an iterable yielding integers in range(256)",
      "  - a text string encoded using the specified encoding", "  - a bytes or a buffer object",
      "  - any object implementing the buffer API.", "  - an integer"]),
   ("bytes", ["bytes(iterable_of_ints) -> bytes", "bytes(string, encoding[, errors]) -> bytes",
      "bytes(bytes_or_buffer) -> immutable copy of bytes_or_buffer",
      "bytes(int) -> bytes object of size given by the parameter initialized with null bytes",
      "bytes() -> empty bytes object", "", "Construct an immutable array of bytes from:",
      "  - an iterable yielding integers in range(256)",
      "  - a text string encoded using the specified encoding",
      "  - any object implementing the buffer API.", "  - an integer"]),
   ("classmethod", ["classmethod(function) -> method", "",
      "Convert a function to be a class method.", "",
      "A class method receives the class as implicit first argument,",
      "just like an instance method receives the instance.",
      "To declare a class method, use this idiom:", "", "  class C:", "      @classmethod",
      "      def f(cls, arg1, arg2, argN):", "          ...", "",
      "It can be called either on the class (e.g. C.f()) or on an instance",
      "(e.g. C().f()).  The instance is ignored except for its class.",
      "If a class method is called for a derived class, the derived class",
      "object is passed as the implied first argument.", "",
      "Class methods are different than C++ or Java static methods.",
      "If you want those, see the staticmethod builtin."]),
   ("complex", ["Create a complex number from a real part and an optional imaginary part.", "",
      "This is equivalent to (real + imag*1j) where imag defaults to 0."]),
   ("dict", ["dict() -> new empty dictionary",
      "dict(mapping) -> new dictionary initialized from a mapping object's",
      "    (key, value) pairs", "dict(iterable) -> new dictionary initialized as if via:",
      "    d = \x7b\x7d", "    for k, v in iterable:", "        d[k] = v",
      "dict(**kwargs) -> new dictionary initialized with the name=value pairs",
      "    in the keyword argument list.  For example:  dict(one=1, two=2)"]),
   ("enumerate", ["Return an enumerate object.", "", "  iterable",
      "    an object supporting iteration", "",
      "The enumerate object yields pairs containing a count (from start, which",
      "defaults to zero) and a value yielded by the iterable argument.", "",
      "enumerate is useful for obtaining an indexed list:",
      "    (0, seq[0]), (1, seq[1]), (2, seq[2]), ..."]),
   ("filter", ["filter(function or None, iterable) --> filter object", "",
      "Return an iterator yielding those items of iterable for which function(item)",
      "is true. If function is None, return the items that are true."]),
   ("float", ["Convert a string or number to a floating point number, if possible."]),
   ("frozenset", ["frozenset() -> empty frozenset object",
      "frozenset(iterable) -> frozenset object", "",
      "Build an immutable unordered collection of unique elements."]),
   ("int", ["int([x]) -> integer", "int(x, base=10) -> integer", "",
      "Convert a number or string to an integer, or return 0 if no arguments",
      "are given.  If x is a number, return x.__int__().  For floating point",
      "numbers, this truncates towards zero.", "",
      "If x is not a number or if base is given, then x must be a string,",
      "bytes, or bytearray instance representing an integer literal in the",
      "given base.  The literal can be preceded by '+' or '-' and be surrounded",
      "by whitespace.  The base defaults to 10.  Valid bases are 0 and 2-36.",
      "Base 0 means to interpret the base from the string as an integer literal.",
      ">>> int('0b100', base=0)", "4"]),
   ("list", ["Built-in mutable sequence.", "",
      "If no argument is given, the constructor creates a new empty list.",
      "The argument must be an iterable if specified."]),
   ("map", ["map(func, *iterables) --> map object", "",
      "Make an iterator that computes the function using arguments from",
      "each of the iterables.  Stops when the shortest iterable is exhausted."]),
   ("memoryview", ["Create a new memoryview object which references the given object."]),
   ("object", ["The base class of the class hierarchy.", "",
      "When called, it accepts no arguments and returns a new featureless",
      "instance that has no instance attributes and cannot be given any.", ""]),
   ("property", ["Property attribute.", "", "  fget",
      "    function to be used for getting an attribute value", "  fset",
      "    function to be used for setting an attribute value", "  fdel",
      "    function to be used for del'ing an attribute", "  doc", "    docstring", "",
      "Typical use is to define a managed attribute x:", "", "class C(object):",
      "    def getx(self): return self._x", "    def setx(self, value): self._x = value",
      "    def delx(self): del self._x",
      "    x = property(getx, setx, delx, \"I'm the 'x' property.\")", "",
      "Decorators make defining new properties or modifying existing ones easy:", "",
      "class C(object):", "    @property", "    def x(self):", "        \"I am the 'x' property.\"",
      "        return self._x", "    @x.setter", "    def x(self, value):",
      "        self._x = value", "    @x.deleter", "    def x(self):", "        del self._x"]),
   ("range", ["range(stop) -> range object", "range(start, stop[, step]) -> range object", "",
      "Return an object that produces a sequence of integers from start (inclusive)",
      "to stop (exclusive) by step.  range(i, j) produces i, i+1, i+2, ..., j-1.",
      "start defaults to 0, and stop is omitted!  range(4) produces 0, 1, 2, 3.",
      "These are exactly the valid indices for a list of 4 elements.",
      "When step is given, it specifies the increment (or decrement)."]),
   ("reversed", ["Return a reverse iterator over the values of the given sequence."]),
   ("set", ["set() -> new empty set object", "set(iterable) -> new set object", "",
      "Build an unordered collection of unique elements."]),
   ("slice", ["slice(stop)", "slice(start, stop[, step])", "",
      "Create a slice object.  This is used for extended slicing (e.g. a[0:10:2])."]),
   ("staticmethod", ["staticmethod(function) -> method", "",
      "Convert a function to be a static method.", "",
      "A static method does not receive an implicit first argument.",
      "To declare a static method, use this idiom:", "", "     class C:", "         @staticmethod",
      "         def f(arg1, arg2, argN):", "             ...", "",
      "It can be called either on the class (e.g. C.f()) or on an instance",
      "(e.g. C().f()). Both the class and the instance are ignored, and",
      "neither is passed implicitly as the first argument to the method.", "",
      "Static methods in Python are similar to those found in Java or C++.",
      "For a more advanced concept, see the classmethod builtin."]),
   ("str", ["str(object='') -> str", "str(bytes_or_buffer[, encoding[, errors]]) -> str", "",
      "Create a new string object from the given object. If encoding or",
      "errors is specified, then the object must expose a data buffer",
      "that will be decoded using the given encoding and error handler.",
      "Otherwise, returns the result of object.__str__() (if defined)", "or repr(object).",
      "encoding defaults to sys.getdefaultencoding().", "errors defaults to 'strict'."]),
   ("super", ["super() -> same as super(__class__, <first argument>)",
      "super(type) -> unbound super object",
      "super(type, obj) -> bound super object; requires isinstance(obj, type)",
      "super(type, type2) -> bound super object; requires issubclass(type2, type)",
      "Typical use to call a cooperative superclass method:", "class C(B):",
      "    def meth(self, arg):", "        super().meth(arg)", "This works for class methods too:",
      "class C(B):", "    @classmethod", "    def cmeth(cls, arg):", "        super().cmeth(arg)",
      ""]),
   ("tuple", ["Built-in immutable sequence.", "",
      "If no argument is given, the constructor returns an empty tuple.",
      "If iterable is specified the tuple is initialized from iterable's items.", "",
      "If the argument is a tuple, the return value is the same object."]),
   ("type", ["type(object) -> the object's type", "type(name, bases, dict, **kwds) -> a new type"]),
   ("zip", ["zip(*iterables, strict=False) --> Yield tuples until an input is exhausted.", "",
      "   >>> list(zip('abcdefg', range(3), range(4)))",
      "   [('a', 0, 0), ('b', 1, 1), ('c', 2, 2)]", "",
      "The zip object yields n-length tuples, where n is the number of iterables",
      "passed as positional arguments to zip().  The i-th element in every tuple",
      "comes from the i-th iterable argument to zip().  This continues until the",
      "shortest argument is exhausted.", "",
      "If strict is true and one of the arguments is exhausted before the others,",
      "raise a ValueError."])]

def docOf? (name : String) : Option String :=
  (classDocs.lookup name).map ("\n".intercalate ·)

end TypeStubs.Builtins
