/-!
# Transcripts

What a person at the console would read: the server's echo of chat lines, or what a client shows.
Each text written is kept as one entry, however many lines it has.
-/

namespace ChatRoom

abbrev Transcript := List String

namespace Transcript

def write (t : Transcript) (text : String) : Transcript := t ++ [text]

/-- Whether exactly this text has been written. -/
def includes (t : Transcript) (text : String) : Bool := t.contains text

end Transcript

end ChatRoom
