/-
  MailMerge.Word — the element and attribute names of WordprocessingML that merging
  looks at.
-/

namespace MailMerge.Word

def paragraph : String := "w:p"
def run : String := "w:r"
def runProperties : String := "w:rPr"
def text : String := "w:t"
def lineBreak : String := "w:br"
def tableRow : String := "w:tr"
def tableCell : String := "w:tc"

/-- A field written as one element, its instruction in an attribute. -/
def simpleField : String := "w:fldSimple"
def fieldInstruction : String := "w:instr"

/-- A marker of a field that is spread over runs. -/
def fieldChar : String := "w:fldChar"
def fieldCharType : String := "w:fldCharType"
def instructionText : String := "w:instrText"

def pictureProperties : String := "pic:cNvPr"
def pictureName : String := "name"
def blip : String := "a:blip"
def embed : String := "r:embed"

def space : String := "xml:space"
def preserve : String := "preserve"

/-- Containers at the level of runs, which may take a run's place inside a paragraph. -/
def inlineElements : List String := [run, "w:hyperlink", "w:ins", "w:del"]

end MailMerge.Word
