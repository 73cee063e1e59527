/-!
# Terminal styles

A `Style` surrounds a text with escape sequences that a terminal obeys and does not show.
-/

namespace StateMerging.Text

structure Style where
  opening : String
  closing : String

namespace Style

def bold : Style := ⟨"\x1b[1m", "\x1b[0m"⟩

def green : Style := ⟨"\x1b[32m", "\x1b[39m"⟩

def apply (s : Style) (text : String) : String := s.opening ++ text ++ s.closing

end Style

end StateMerging.Text
