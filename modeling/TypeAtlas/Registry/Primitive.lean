/-!
# Primitive types

Names that no source defines, because they belong to a language or a platform.
-/

namespace TypeAtlas.Primitive

/-- The names of the C family. -/
def cNames : List String :=
  ["void", "bool", "char", "wchar_t", "char16_t", "char32_t", "short", "int", "long",
   "long long", "float", "double", "long double", "signed char", "unsigned char",
   "unsigned short", "unsigned int", "unsigned long", "unsigned long long", "unsigned", "signed",
   "size_t", "ptrdiff_t", "intptr_t", "uintptr_t", "int8_t", "int16_t", "int32_t", "int64_t",
   "uint8_t", "uint16_t", "uint32_t", "uint64_t", "auto", "nullptr_t"]

/-- The names of the Windows platform and its object model. -/
def platformNames : List String :=
  ["BOOL", "BOOLEAN", "BYTE", "CHAR", "WCHAR", "SHORT", "USHORT", "INT", "UINT", "LONG", "ULONG",
   "DWORD", "WORD", "QWORD", "FLOAT", "DOUBLE", "INT8", "INT16", "INT32", "INT64", "UINT8",
   "UINT16", "UINT32", "UINT64", "LONGLONG", "ULONGLONG", "SIZE_T", "HRESULT", "HSTRING",
   "HANDLE", "HWND", "LPCWSTR", "LPWSTR", "LPCSTR", "LPSTR", "PCWSTR", "PWSTR", "BSTR",
   "VARIANT", "GUID", "REFIID", "REFGUID", "IID", "LPVOID", "PVOID"]

/-- The names of Objective-C. -/
def objCNames : List String :=
  ["id", "SEL", "IMP", "Class", "BOOL", "NSInteger", "NSUInteger", "CGFloat", "instancetype"]

/-- The keywords of managed languages and the types that they stand for. -/
def managedNames : List String :=
  ["object", "string", "byte", "sbyte", "ushort", "uint", "ulong", "decimal", "dynamic",
   "System.Void", "System.Boolean", "System.Byte", "System.SByte", "System.Char", "System.Int16",
   "System.UInt16", "System.Int32", "System.UInt32", "System.Int64", "System.UInt64",
   "System.Single", "System.Double", "System.Decimal", "System.String", "System.Object",
   "System.IntPtr", "System.UIntPtr", "System.Guid"]

/-- All names of primitive types. -/
def names : List String :=
  cNames ++ platformNames ++ objCNames ++ managedNames

/-- Whether a name is the name of a primitive type. -/
def isName (name : String) : Bool :=
  names.contains name

end TypeAtlas.Primitive
