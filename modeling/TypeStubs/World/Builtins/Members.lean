/-! The members of the classes of the language itself. -/

namespace TypeStubs.Builtins

/-! What several classes have. -/

def numberMembers : List String :=
  ["__abs__", "__add__", "__bool__", "__getnewargs__", "__mul__", "__neg__", "__pos__", "__pow__",
   "__radd__", "__rmul__", "__rpow__", "__rsub__", "__rtruediv__", "__sub__", "__truediv__",
   "conjugate", "imag", "real"]

def realMembers : List String :=
  numberMembers ++ ["__ceil__", "__divmod__", "__float__", "__floor__", "__floordiv__", "__int__",
   "__mod__", "__rdivmod__", "__rfloordiv__", "__rmod__", "__round__", "__trunc__",
   "as_integer_ratio"]

def textMembers : List String :=
  ["__add__", "__contains__", "__getitem__", "__iter__", "__len__", "__mod__", "__mul__",
   "__rmod__", "__rmul__", "capitalize", "center", "count", "endswith", "expandtabs", "find",
   "index", "isalnum", "isalpha", "isascii", "isdigit", "islower", "isspace", "istitle", "isupper",
   "join", "ljust", "lower", "lstrip", "maketrans", "partition", "removeprefix", "removesuffix",
   "replace", "rfind", "rindex", "rjust", "rpartition", "rsplit", "rstrip", "split", "splitlines",
   "startswith", "strip", "swapcase", "title", "translate", "upper", "zfill"]

def setMembers : List String :=
  ["__and__", "__class_getitem__", "__contains__", "__iter__", "__len__", "__or__", "__rand__",
   "__ror__", "__rsub__", "__rxor__", "__sub__", "__xor__", "copy", "difference", "intersection",
   "isdisjoint", "issubset", "issuperset", "symmetric_difference", "union"]

/-- The names that the members of a class have, without those that every object has and those of the
class it extends. -/
def memberNames : List (String × List String) :=
  [("AttributeError", ["name", "obj"]),
   ("BaseException", ["__cause__", "__context__", "__setstate__", "__suppress_context__",
     "__traceback__", "add_note", "args", "with_traceback"]),
   ("BaseExceptionGroup", ["__class_getitem__", "derive", "exceptions", "message", "split",
     "subgroup"]),
   ("ImportError", ["msg", "name", "path"]),
   ("NameError", ["name"]),
   ("NoneType", ["__bool__"]),
   ("OSError", ["characters_written", "errno", "filename", "filename2", "strerror"]),
   ("StopIteration", ["value"]),
   ("SyntaxError", ["end_lineno", "end_offset", "filename", "lineno", "msg", "offset",
     "print_file_and_line", "text"]),
   ("SystemExit", ["code"]),
   ("UnicodeDecodeError", ["encoding", "end", "object", "reason", "start"]),
   ("UnicodeEncodeError", ["encoding", "end", "object", "reason", "start"]),
   ("UnicodeTranslateError", ["encoding", "end", "object", "reason", "start"]),
   ("bool", ["__and__", "__or__", "__rand__", "__ror__", "__rxor__", "__xor__"]),
   ("builtin_function_or_method", ["__call__", "__module__", "__name__", "__qualname__",
     "__self__", "__text_signature__"]),
   ("bytearray", textMembers ++ ["__alloc__", "__delitem__", "__iadd__", "__imul__", "__setitem__",
     "append", "clear", "copy", "decode", "extend", "fromhex", "hex", "insert", "pop", "remove",
     "reverse"]),
   ("bytes", textMembers ++ ["__bytes__", "__getnewargs__", "decode", "fromhex", "hex"]),
   ("classmethod", ["__func__", "__get__", "__isabstractmethod__", "__wrapped__"]),
   ("complex", numberMembers ++ ["__complex__"]),
   ("dict", ["__class_getitem__", "__contains__", "__delitem__", "__getitem__", "__ior__",
     "__iter__", "__len__", "__or__", "__reversed__", "__ror__", "__setitem__", "clear", "copy",
     "fromkeys", "get", "items", "keys", "pop", "popitem", "setdefault", "update", "values"]),
   ("enumerate", ["__class_getitem__", "__iter__", "__next__"]),
   ("filter", ["__iter__", "__next__"]),
   ("float", realMembers ++ ["__getformat__", "fromhex", "hex", "is_integer"]),
   ("frozenset", setMembers),
   ("function", ["__annotations__", "__builtins__", "__call__", "__closure__", "__code__",
     "__defaults__", "__dict__", "__get__", "__globals__", "__kwdefaults__", "__module__",
     "__name__", "__qualname__"]),
   ("int", realMembers ++ ["__and__", "__index__", "__invert__", "__lshift__", "__or__",
     "__rand__", "__rlshift__", "__ror__", "__rrshift__", "__rshift__", "__rxor__", "__xor__",
     "bit_count", "bit_length", "denominator", "from_bytes", "numerator", "to_bytes"]),
   ("list", ["__add__", "__class_getitem__", "__contains__", "__delitem__", "__getitem__",
     "__iadd__", "__imul__", "__iter__", "__len__", "__mul__", "__reversed__", "__rmul__",
     "__setitem__", "append", "clear", "copy", "count", "extend", "index", "insert", "pop",
     "remove", "reverse", "sort"]),
   ("map", ["__iter__", "__next__"]),
   ("memoryview", ["__delitem__", "__enter__", "__exit__", "__getitem__", "__iter__", "__len__",
     "__setitem__", "c_contiguous", "cast", "contiguous", "f_contiguous", "format", "hex",
     "itemsize", "nbytes", "ndim", "obj", "readonly", "release", "shape", "strides", "suboffsets",
     "tobytes", "tolist", "toreadonly"]),
   ("method", ["__call__", "__func__", "__self__"]),
   ("property", ["__delete__", "__get__", "__isabstractmethod__", "__set__", "__set_name__",
     "deleter", "fdel", "fget", "fset", "getter", "setter"]),
   ("range", ["__bool__", "__contains__", "__getitem__", "__iter__", "__len__", "__reversed__",
     "count", "index", "start", "step", "stop"]),
   ("reversed", ["__iter__", "__length_hint__", "__next__", "__setstate__"]),
   ("set", setMembers ++ ["__iand__", "__ior__", "__isub__", "__ixor__", "add", "clear",
     "difference_update", "discard", "intersection_update", "pop", "remove",
     "symmetric_difference_update", "update"]),
   ("slice", ["indices", "start", "step", "stop"]),
   ("staticmethod", ["__call__", "__func__", "__get__", "__isabstractmethod__", "__wrapped__"]),
   ("str", textMembers ++ ["__getnewargs__", "casefold", "encode", "format", "format_map",
     "isdecimal", "isidentifier", "isnumeric", "isprintable"]),
   ("super", ["__get__", "__self__", "__self_class__", "__thisclass__"]),
   ("tuple", ["__add__", "__class_getitem__", "__contains__", "__getitem__", "__getnewargs__",
     "__iter__", "__len__", "__mul__", "__rmul__", "count", "index"]),
   ("zip", ["__iter__", "__next__", "__setstate__"])]

def ownMembers (name : String) : List String := (memberNames.lookup name).getD []

end TypeStubs.Builtins
