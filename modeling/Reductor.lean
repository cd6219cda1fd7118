import Reductor.Acceptance
import Reductor.Agreement
import Reductor.Answers
import Reductor.Closed
import Reductor.Decoder
import Reductor.Deletions
import Reductor.Exceptions
import Reductor.Failures
import Reductor.Layout
import Reductor.Orders
import Reductor.Sentences
import Reductor.Candy.AddClauses
import Reductor.Candy.Certificate
